import ElmNavigator.Proofs.Glob.Rests
import ElmNavigator.Proofs.Place.PathTexts
import ElmNavigator.Proofs.Syntax.Chunks
import ElmNavigator.Workspace.SymbolIndex

/-!
# Patterns of module files

The pattern of all module files matches every text with the right ending.  The
pattern of one module is read into literal characters that have this ending, so
what it matches is a module file.
-/

namespace ElmNavigator
namespace Glob

open Text ElmNavigator.Path

/-!
## All module files
-/

def allModules : Glob :=
  { parts := .anyPrefix :: .star :: ".elm".toList.map .literal }

theorem parse_allFiles : parse SymbolIndex.allFiles = .ok allModules :=
  rfl

theorem exists_component (text : List UInt8) :
    exists component, slash ∉ component ∧
      (text = component ∨ exists front, text = front ++ slash :: component) := by
  induction text with
  | nil =>
      exact ⟨[], by simp, Or.inl rfl⟩
  | cons b text ih =>
      rcases ih with ⟨component, hslash, htext | ⟨front, hfront⟩⟩
      · by_cases hb : b = slash
        · exact ⟨component, hslash, Or.inr ⟨[], by rw [hb, htext]; rfl⟩⟩
        · refine ⟨b :: component, ?_, Or.inl (by rw [htext])⟩
          intro hmem
          rcases List.mem_cons.mp hmem with hhead | htail
          · exact hb hhead.symm
          · exact hslash htail
      · exact ⟨component, hslash, Or.inr ⟨b :: front, by rw [hfront]; rfl⟩⟩

theorem isMatch_allModules {text front : List UInt8}
    (h : text = front ++ utf8 ".elm".toList) : allModules.isMatch text = true := by
  have hparts : Part.star :: ".elm".toList.map Part.literal ≠ [] := List.cons_ne_nil _ _
  apply (isMatch_iff hparts text).mpr
  rcases exists_component front with ⟨component, hslash, hfront⟩
  refine ⟨component ++ utf8 ".elm".toList, ?_, utf8 ".elm".toList, ?_, ?_⟩
  · rw [mem_rests_anyPrefix, h]
    rcases hfront with heq | ⟨above, heq⟩
    · exact Or.inl (by rw [heq])
    · exact Or.inr ⟨above, by rw [heq, List.append_assoc]; rfl⟩
  · rw [Part.rests]
    exact mem_restsInComponent hslash
  · exact leaves_literals.mpr (List.append_nil _).symm

/-!
## One module
-/

/-- Characters that stand for themselves in a pattern. -/
def isOrdinary (c : Char) : Bool :=
  isAlphanumeric c || c == '_' || c == '.' || c == '/'

theorem plainStep_ordinary {c : Char} (h : isOrdinary c = true) (r : Reader)
    (previous : Option Char) (ahead : List Char) :
    r.plainStep previous c ahead = .ok (r.push (.literal c)) := by
  have hspecial : ("?*[\x7b\x7d,\\".toList.all fun d => !isOrdinary d) = true := by
    decide
  have hne {d : Char} (hd : d ∈ "?*[\x7b\x7d,\\".toList) : c ≠ d := by
    intro heq
    have hd := List.all_eq_true.mp hspecial d hd
    rw [← heq, h] at hd
    cases hd
  unfold Reader.plainStep
  split
  · exact absurd rfl (hne (by decide))
  · exact absurd rfl (hne (by decide))
  · exact absurd rfl (hne (by decide))
  · exact absurd rfl (hne (by decide))
  · exact absurd rfl (hne (by decide))
  · exact absurd rfl (hne (by decide))
  · exact absurd rfl (hne (by decide))
  · rfl

theorem readFrom_ordinary {cs : List Char} (h : forall c, c ∈ cs -> isOrdinary c = true)
    (current : List Part) (previous : Option Char) :
    Reader.readFrom { mode := .plain, group := { finished := [], current }, outer := [] }
      previous cs = .ok (current.reverse ++ cs.map .literal) := by
  induction cs generalizing current previous with
  | nil =>
      rw [List.map_nil, List.append_nil]
      rfl
  | cons c cs ih =>
      have hc := h c List.mem_cons_self
      have hcs : forall d, d ∈ cs -> isOrdinary d = true := fun d hd =>
        h d (List.mem_cons_of_mem c hd)
      simp only [Reader.readFrom, Reader.step, plainStep_ordinary hc]
      have hrest := ih hcs (.literal c :: current) (some c)
      rw [List.reverse_cons, List.append_assoc] at hrest
      exact hrest

theorem parse_inAnyDirectory {cs : List Char}
    (h : forall c, c ∈ cs -> isOrdinary c = true) :
    parse (String.ofList ("**/".toList ++ cs)) =
      .ok { parts := .anyPrefix :: cs.map .literal } := by
  have hread := readFrom_ordinary h [.anyPrefix] (some '/')
  have hstart : Reader.start.readFrom none ("**/".toList ++ cs) =
      Reader.readFrom
        { mode := .plain, group := { finished := [], current := [.anyPrefix] }, outer := [] }
        (some '/') cs := rfl
  unfold parse
  rw [String.toList_ofList, hstart, hread]
  rfl

/-!
## Names of module files
-/

theorem isOrdinary_of_isNamePart {part : List Char}
    (h : SymbolQuery.isNamePart part = true) {c : Char} (hc : c ∈ part) :
    isOrdinary c = true := by
  simp only [SymbolQuery.isNamePart, Bool.and_eq_true, List.all_eq_true] at h
  have hordinary := h.right c hc
  simp only [Bool.or_eq_true] at hordinary
  simp only [isOrdinary, Bool.or_eq_true]
  exact Or.inl (Or.inl hordinary)

theorem ne_slash_of_isNamePart {part : List Char}
    (h : SymbolQuery.isNamePart part = true) {c : Char} (hc : c ∈ part) : c ≠ '/' := by
  rintro rfl
  simp only [SymbolQuery.isNamePart, Bool.and_eq_true, List.all_eq_true] at h
  exact absurd (h.right _ hc) (by decide)

theorem ne_nil_of_isNamePart {part : List Char} (h : SymbolQuery.isNamePart part = true) :
    part ≠ [] := by
  rintro rfl
  cases h

theorem not_absolute_of_isNamePart {part : List Char}
    (h : SymbolQuery.isNamePart part = true) : (ofChars part).isAbsolute = false := by
  rw [isAbsolute_ofChars]
  cases part with
  | nil => rfl
  | cons c cs => simpa using ne_slash_of_isNamePart h List.mem_cons_self

theorem exists_joined_parts {parts : List (List Char)}
    (h : forall part, part ∈ parts -> SymbolQuery.isNamePart part = true) :
    exists cs, parts.foldl (fun (p : Path) part => p.join (ofChars part)) { bytes := [] } =
        ofChars cs ∧
      (forall c, c ∈ cs -> isOrdinary c = true) ∧
      (parts ≠ [] -> exists front c, cs = front ++ [c] ∧ c ≠ '/') := by
  induction parts using List.reverseRecOn with
  | nil =>
      exact ⟨[], rfl, List.forall_mem_nil _, fun hne => absurd rfl hne⟩
  | append_singleton parts part ih =>
      have hpart := h part (by simp)
      rcases ih fun other hother => h other (List.mem_append_left [part] hother) with
        ⟨cs, hjoined, hordinary, _⟩
      rcases join_ofChars (not_absolute_of_isNamePart hpart) cs with ⟨gap, hgap, hjoin⟩
      refine ⟨cs ++ gap ++ part, ?_, ?_, fun _ => ?_⟩
      · rw [List.foldl_append, hjoined]
        exact hjoin
      · intro c hc
        rcases List.mem_append.mp hc with hfront | hlast
        · rcases List.mem_append.mp hfront with hbefore | hbetween
          · exact hordinary c hbefore
          · rcases hgap with rfl | rfl
            · cases hbetween
            · rw [List.mem_singleton.mp hbetween]
              decide
        · exact isOrdinary_of_isNamePart hpart hlast
      · have hne := ne_nil_of_isNamePart hpart
        refine ⟨cs ++ gap ++ part.dropLast, part.getLast hne, ?_, ?_⟩
        · rw [List.append_assoc (cs ++ gap), List.dropLast_append_getLast hne]
        · exact ne_slash_of_isNamePart hpart (List.getLast_mem hne)

theorem trimEnd_slash_utf8 {c : Char} (hc : c ≠ '/') (front : List Char) :
    trimEnd (fun b => b == slash) (utf8 (front ++ [c])) = utf8 (front ++ [c]) := by
  have hbytes : utf8 [c] = String.utf8EncodeChar c := List.append_nil _
  have hne : utf8 [c] ≠ [] := by
    rw [← List.length_pos_iff, hbytes, String.length_utf8EncodeChar]
    exact c.utf8Size_pos
  have hslash : ((utf8 [c]).getLast hne == slash) = false := by
    rw [beq_eq_false_iff_ne]
    intro heq
    have hmem := List.getLast_mem hne
    rw [heq, hbytes] at hmem
    exact slash_not_mem_utf8EncodeChar hc hmem
  have htrim := Syntax.trimEnd_append_cons (p := fun b => b == slash) hslash
    (utf8 front ++ (utf8 [c]).dropLast) []
  rw [utf8_append]
  simpa [List.append_assoc, List.dropLast_append_getLast hne, trimEnd] using htrim

theorem exists_ofModuleName {name : String}
    (h : SymbolQuery.isModuleName name.toList = true) :
    exists front, Path.ofModuleName name = ofChars (front ++ ".elm".toList) ∧
      forall c, c ∈ front -> isOrdinary c = true := by
  simp only [SymbolQuery.isModuleName, List.all_eq_true] at h
  rcases exists_joined_parts h with ⟨cs, hjoined, hordinary, hlast⟩
  rcases hlast (splitOn_ne_nil '.' name.toList) with ⟨front, c, hcs, hc⟩
  refine ⟨cs, ?_, hordinary⟩
  have htrim : trimEnd (fun b => b == slash) (ofChars cs).bytes = utf8 cs := by
    rw [hcs]
    exact trimEnd_slash_utf8 hc front
  simp only [Path.ofModuleName, hjoined, htrim]
  cases hbytes : utf8 cs with
  | nil =>
      have hlength := congrArg List.length hbytes
      rw [hcs, length_utf8, byteLength_append] at hlength
      have hpos := c.utf8Size_pos
      simp at hlength
      omega
  | cons b bytes =>
      simp only [ofChars, utf8_append, hbytes]

theorem parse_filePattern {name : String}
    (h : SymbolQuery.isModuleName name.toList = true) :
    exists front, parse (SymbolIndex.filePattern name) =
      .ok { parts := .anyPrefix :: (front ++ ".elm".toList).map .literal } := by
  rcases exists_ofModuleName h with ⟨front, hpath, hfront⟩
  have hending : ".elm".toList.map (fun c => if c = '\\' then '/' else c) =
      ".elm".toList := by
    decide
  refine ⟨front.map (fun c => if c = '\\' then '/' else c), ?_⟩
  unfold SymbolIndex.filePattern
  simp only
  rw [hpath, chars_ofChars, List.map_append, hending]
  apply parse_inAnyDirectory
  intro c hc
  rcases List.mem_append.mp hc with hleft | hright
  · rcases List.mem_map.mp hleft with ⟨d, hd, hc⟩
    rw [← hc]
    split
    · decide
    · exact hfront d hd
  · have hall : ".elm".toList.all isOrdinary = true := by
      decide
    exact List.all_eq_true.mp hall c hright

theorem isMatch_allModules_of_filePattern {name : String} {wanted : Glob}
    (h : SymbolQuery.isModuleName name.toList = true)
    (hwanted : parse (SymbolIndex.filePattern name) = .ok wanted) {text : List UInt8}
    (hmatch : wanted.isMatch text = true) : allModules.isMatch text = true := by
  rcases parse_filePattern h with ⟨front, hparse⟩
  rw [hwanted] at hparse
  rw [Except.ok.inj hparse] at hmatch
  have hparts : (front ++ ".elm".toList).map Part.literal ≠ [] := by
    simp
  rcases (isMatch_iff hparts text).mp hmatch with ⟨rest, hrest, hleaves⟩
  have hends := leaves_literals.mp hleaves
  rw [List.append_nil, utf8_append] at hends
  rcases mem_rests_anyPrefix.mp hrest with hwhole | ⟨above, habove⟩
  · rw [hwhole] at hends
    exact isMatch_allModules hends
  · rw [hends] at habove
    have hsuffix : text = (above ++ slash :: utf8 front) ++ utf8 ".elm".toList := by
      rw [habove, List.append_assoc, List.cons_append]
    exact isMatch_allModules hsuffix

end Glob
end ElmNavigator
