import ElmNavigator.Proofs.Place.UriRoundTrip

/-!
# The URIs of paths are URIs

The URI of a path is put together as a text.  Behind `file://` and a slash the text
has only unreserved characters, slashes and percent-encoded octets, and every such
text is a URI reference.  So the URI of a path can be read like any other, and for an
absolute path it leads back to the path.
-/

namespace ElmNavigator

open Text

/-!
## Texts of file URIs
-/

namespace Uri

/-- Characters that the path of a file URI has besides percent-encoded octets. -/
def isPlainChar (c : Char) : Bool :=
  isUnreserved c || c == '/'

section Encoded

variable {allowed : Char -> Bool}

theorem encodedIn_char {c : Char} (h : c ≠ '%') (rest : List Char) :
    encodedIn allowed (c :: rest) = (allowed c && encodedIn allowed rest) := by
  rw [encodedIn]
  · rw [bne_iff_ne.mpr h, Bool.true_and]
  · intro a b more hc
    exact absurd hc h

theorem encodedIn_octet {a b : Char} (ha : isHexDigit a = true) (hb : isHexDigit b = true)
    (rest : List Char) :
    encodedIn allowed ('%' :: a :: b :: rest) = encodedIn allowed rest := by
  rw [encodedIn, ha, hb]
  rfl

theorem encodedIn_mono {more : Char -> Bool} (hmore : forall c, allowed c = true -> more c = true)
    {cs : List Char} (h : encodedIn allowed cs = true) : encodedIn more cs = true := by
  fun_induction encodedIn allowed cs with
  | case1 => rfl
  | case2 a b rest ih =>
      simp only [Bool.and_eq_true] at h
      rw [encodedIn_octet h.1.1 h.1.2]
      exact ih h.2
  | case3 c rest _ ih =>
      simp only [Bool.and_eq_true, bne_iff_ne] at h
      rw [encodedIn_char h.1.1, hmore c h.1.2, ih h.2]
      rfl

theorem mem_encodedIn {cs : List Char} (h : encodedIn allowed cs = true) {c : Char}
    (hc : c ∈ cs) : allowed c = true ∨ c = '%' ∨ isHexDigit c = true := by
  fun_induction encodedIn allowed cs with
  | case1 => cases hc
  | case2 a b rest ih =>
      simp only [Bool.and_eq_true] at h
      simp only [List.mem_cons] at hc
      rcases hc with hpercent | ha | hb | hrest
      · exact Or.inr (Or.inl hpercent)
      · exact Or.inr (Or.inr (ha ▸ h.1.1))
      · exact Or.inr (Or.inr (hb ▸ h.1.2))
      · exact ih h.2 hrest
  | case3 d rest _ ih =>
      simp only [Bool.and_eq_true] at h
      rcases List.mem_cons.mp hc with hd | hrest
      · exact Or.inl (hd ▸ h.1.2)
      · exact ih h.2 hrest

end Encoded

theorem splitAtFirst?_eq_none {sep : Char} {cs : List Char} (h : sep ∉ cs) :
    splitAtFirst? sep cs = none := by
  induction cs with
  | nil => rfl
  | cons c cs ih =>
      have hc : c ≠ sep := fun heq => h (heq ▸ List.mem_cons_self)
      have hcs : sep ∉ cs := fun hmem => h (List.mem_cons_of_mem c hmem)
      rw [splitAtFirst?, if_neg hc, ih hcs]
      rfl

theorem not_mem_fileText {path : List Char} (h : encodedIn isPlainChar path = true) {c : Char}
    (hc : c = '?' ∨ c = '#') : c ∉ "file://".toList ++ path := by
  intro hmem
  have hclasses : c ∉ "file://".toList ∧ isPlainChar c = false ∧ c ≠ '%' ∧
      isHexDigit c = false := by
    rcases hc with hquery | hfragment
    · rw [hquery]
      decide
    · rw [hfragment]
      decide
  rcases hclasses with ⟨hscheme, hplain, hpercent, hdigit⟩
  rcases List.mem_append.mp hmem with hfront | hpath
  · exact hscheme hfront
  · rcases mem_encodedIn h hpath with hallowed | heq | hhex
    · exact absurd hallowed (by simp [hplain])
    · exact hpercent heq
    · exact absurd hhex (by simp [hdigit])

theorem parse?_fileText {path : List Char} (hslash : path.head? = some '/')
    (h : encodedIn isPlainChar path = true) :
    parse? (String.ofList ("file://".toList ++ path)) =
      some { text := String.ofList ("file://".toList ++ path) } := by
  have hpath : encodedIn isPathChar path = true := by
    refine encodedIn_mono ?_ h
    intro c hc
    simp only [isPlainChar, Bool.or_eq_true] at hc
    simp only [isPathChar, isNameChar, Bool.or_eq_true]
    tauto
  have hbare : isBare ("file://".toList ++ path) = true := by
    rcases List.head?_eq_some_iff.mp hslash with ⟨rest, hrest⟩
    subst hrest
    -- The scheme is `file`, and the host between the slashes is empty.
    show (isScheme "file".toList && (isAuthority [] && encodedIn isPathChar ('/' :: rest))) = true
    rw [hpath]
    decide
  have hreference : isReference ("file://".toList ++ path) = true := by
    have hfragment := splitAtFirst?_eq_none (not_mem_fileText h (Or.inr rfl))
    have hquery := splitAtFirst?_eq_none (not_mem_fileText h (Or.inl rfl))
    simp only [isReference, hfragment, isWithoutFragment, hquery]
    exact hbare
  unfold parse?
  rw [String.toList_ofList, if_pos hreference]

end Uri

/-!
## URIs of paths
-/

namespace FileUri

open Uri

theorem isHexDigit_hexDigit {n : Nat} (h : n < 16) : isHexDigit (hexDigit n) = true := by
  unfold isHexDigit
  rw [hexValue?_hexDigit n h]
  rfl

theorem encodedIn_encodeByte (b : UInt8) (rest : List Char) :
    encodedIn isPlainChar (encodeByte b ++ rest) = encodedIn isPlainChar rest := by
  have hlt : b.toNat < 256 := b.toNat_lt
  have hb : UInt8.ofNat b.toNat = b := UInt8.ofNat_toNat
  unfold encodeByte
  split
  · rename_i hplain
    have hchar : isPlainChar (Char.ofNat b.toNat) = true := hplain
    rw [← hb] at hplain
    rcases plain_char b.toNat hlt hplain with ⟨hpercent, _⟩
    rw [List.singleton_append, encodedIn_char hpercent, hchar, Bool.true_and]
  · have hhigh : b.toNat / 16 < 16 := by omega
    have hlow : b.toNat % 16 < 16 := by omega
    exact encodedIn_octet (isHexDigit_hexDigit hhigh) (isHexDigit_hexDigit hlow) rest

theorem encodedIn_encode (cs : List Char) : encodedIn isPlainChar (encode cs) = true := by
  unfold encode
  induction utf8 cs with
  | nil => rfl
  | cons b bytes ih => rw [List.flatMap_cons, encodedIn_encodeByte, ih]

theorem exists_fileText (p : Path) :
    exists path, (ofPath p).text = String.ofList ("file://".toList ++ path) ∧
      path.head? = some '/' ∧ encodedIn isPlainChar path = true := by
  by_cases hslash : (encode p.chars).head? = some '/'
  · refine ⟨encode p.chars, ?_, hslash, encodedIn_encode p.chars⟩
    unfold ofPath
    simp only [hslash, if_true]
  · refine ⟨'/' :: encode p.chars, ?_, rfl, ?_⟩
    · unfold ofPath
      simp only [hslash, if_false]
    · rw [encodedIn_char (by decide), encodedIn_encode]
      rfl

theorem parse?_ofPath (p : Path) : Uri.parse? (ofPath p).text = some (ofPath p) := by
  rcases exists_fileText p with ⟨path, htext, hslash, hencoded⟩
  have hparse := parse?_fileText hslash hencoded
  rw [← htext] at hparse
  exact hparse

theorem ofPath_injective {p q : Path} (hp : p.isAbsolute = true) (hq : q.isAbsolute = true)
    (hptext : p.IsText) (hqtext : q.IsText) (h : ofPath p = ofPath q) : p = q := by
  have hpath := toPath?_ofPath_of_isText hp hptext
  rw [h, toPath?_ofPath_of_isText hq hqtext] at hpath
  exact (Option.some.inj hpath).symm

/-- The URI of a text that starts at the root is accepted as it was put together and names the path
of this text, so different texts have different URIs. -/
theorem ofPath_faithful {cs : List Char} (h : cs.head? = some '/') :
    (exists path, (ofPath (.ofChars cs)).text = String.ofList ("file://".toList ++ path) ∧
      path.head? = some '/' ∧ encodedIn isPlainChar path = true) ∧
    Uri.parse? (ofPath (.ofChars cs)).text = some (ofPath (.ofChars cs)) ∧
    toPath? (ofPath (.ofChars cs)) = some (.ofChars cs) ∧
    forall others : List Char, others.head? = some '/' ->
      ofPath (.ofChars others) = ofPath (.ofChars cs) -> others = cs := by
  have habsolute {text : List Char} (htext : text.head? = some '/') :
      (Path.ofChars text).isAbsolute = true := by
    rw [Path.isAbsolute_ofChars, htext]
    rfl
  have hback := toPath?_ofPath_of_isText (habsolute h) (Path.isText_ofChars cs)
  refine ⟨exists_fileText _, parse?_ofPath _, hback, ?_⟩
  intro others hothers hsame
  have hpath := ofPath_injective (habsolute hothers) (habsolute h) (Path.isText_ofChars others)
    (Path.isText_ofChars cs) hsame
  simpa using congrArg Path.chars hpath

/-- What looks like an octet, a query or a fragment is part of the path, and so is a NUL. -/
theorem ofPath_faithful_odd :
    let cs := "/a b/%41?#\x00é😀".toList
    let p := Path.ofChars cs
    cs.head? = some '/' ∧
      (ofPath p).text = "file:///a%20b/%2541%3F%23%00%C3%A9%F0%9F%98%80" ∧
      Uri.parse? (ofPath p).text = some (ofPath p) ∧ toPath? (ofPath p) = some p := by
  intro cs p
  have habsolute : cs.head? = some '/' := by decide
  have htext : (ofPath p).text = "file:///a%20b/%2541%3F%23%00%C3%A9%F0%9F%98%80" := by
    decide +kernel
  rcases ofPath_faithful habsolute with ⟨_, hparse, hpath, _⟩
  exact ⟨habsolute, htext, hparse, hpath⟩

end FileUri
end ElmNavigator
