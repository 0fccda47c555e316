import ElmNavigator.Place.FileUri
import ElmNavigator.Proofs.Place.PathTexts
import Mathlib.Data.List.Basic
import Mathlib.Data.List.TakeWhile

/-!
# Paths and their URIs

The URI of an absolute path leads back to the text that the path is shown as, so
to the path itself exactly if the path is UTF-8.  Bytes are followed one at a time:
a plain byte stands for itself, and any other one is written with two digits that
read back as its halves.
-/

namespace ElmNavigator
namespace FileUri

open Text

/-!
## One byte
-/

theorem plain_char :
    forall n, n < 256 -> isPlain (UInt8.ofNat n) = true ->
      Char.ofNat n ≠ '%' ∧ Char.ofNat n ≠ '?' ∧ Char.ofNat n ≠ '#' ∧
        String.utf8EncodeChar (Char.ofNat n) = [UInt8.ofNat n] := by
  decide +kernel

theorem hexDigit_char :
    forall n, n < 16 -> hexDigit n ≠ '?' ∧ hexDigit n ≠ '#' := by
  decide

theorem decodeBytes_char {c : Char} (h : c ≠ '%') (rest : List Char) :
    decodeBytes (c :: rest) = String.utf8EncodeChar c ++ decodeBytes rest := by
  rw [decodeBytes]
  simp [h]

theorem decodeBytes_octet {high low : Nat} (hhigh : high < 16) (hlow : low < 16)
    (rest : List Char) :
    decodeBytes ('%' :: hexDigit high :: hexDigit low :: rest) =
      UInt8.ofNat (high * 16 + low) :: decodeBytes rest := by
  rw [decodeBytes]
  simp only [hexValue?_hexDigit high hhigh, hexValue?_hexDigit low hlow]

theorem decodeBytes_encodeByte (b : UInt8) (rest : List Char) :
    decodeBytes (encodeByte b ++ rest) = b :: decodeBytes rest := by
  have hlt : b.toNat < 256 := b.toNat_lt
  have hb : UInt8.ofNat b.toNat = b := UInt8.ofNat_toNat
  unfold encodeByte
  split
  · rename_i hplain
    rw [← hb] at hplain
    rcases plain_char b.toNat hlt hplain with ⟨hpercent, _, _, hencode⟩
    rw [List.singleton_append, decodeBytes_char hpercent, hencode, hb]
    rfl
  · have hsum : b.toNat / 16 * 16 + b.toNat % 16 = b.toNat := by omega
    have hhigh : b.toNat / 16 < 16 := by omega
    have hlow : b.toNat % 16 < 16 := by omega
    have hoctet := decodeBytes_octet hhigh hlow rest
    rw [hsum, hb] at hoctet
    exact hoctet

theorem decodeBytes_encode (cs : List Char) : decodeBytes (encode cs) = utf8 cs := by
  unfold encode
  induction utf8 cs with
  | nil => rfl
  | cons b bytes ih =>
      rw [List.flatMap_cons, decodeBytes_encodeByte, ih]

theorem decode_encode (cs : List Char) : decode (encode cs) = cs := by
  unfold decode
  rw [decodeBytes_encode, decodeLossy_utf8]

/-!
## Whole URIs
-/

theorem not_mem_encodeByte {b : UInt8} {c : Char} (h : c ∈ encodeByte b) :
    c ≠ '?' ∧ c ≠ '#' := by
  have hlt : b.toNat < 256 := b.toNat_lt
  have hb : UInt8.ofNat b.toNat = b := UInt8.ofNat_toNat
  unfold encodeByte at h
  split at h
  · rename_i hplain
    rw [← hb] at hplain
    rcases plain_char b.toNat hlt hplain with ⟨_, hquery, hfragment, _⟩
    rw [List.mem_singleton.mp h]
    exact ⟨hquery, hfragment⟩
  · simp only [List.mem_cons, List.not_mem_nil, or_false] at h
    rcases h with hpercent | hhigh | hlow
    · rw [hpercent]
      decide
    · rw [hhigh]
      exact hexDigit_char _ (by omega)
    · rw [hlow]
      exact hexDigit_char _ (by omega)

theorem takeWhile_encode (cs : List Char) :
    (encode cs).takeWhile (fun c => c != '?' && c != '#') = encode cs := by
  rw [List.takeWhile_eq_self_iff]
  intro c hc
  rcases List.mem_flatMap.mp hc with ⟨b, _hb, hmem⟩
  simpa using not_mem_encodeByte hmem

theorem encode_slash (cs : List Char) : encode ('/' :: cs) = '/' :: encode cs := by
  have hslash : (String.utf8EncodeChar '/').flatMap encodeByte = ['/'] := by decide
  unfold encode utf8
  rw [List.flatMap_cons, List.flatMap_append, hslash]
  rfl

theorem exists_chars_of_isAbsolute {p : Path} (h : p.isAbsolute = true) :
    exists cs, p.chars = '/' :: cs := by
  rcases p with ⟨bytes⟩
  cases bytes with
  | nil => cases h
  | cons b bytes =>
      have hb : b = slash := by
        simpa [Path.isAbsolute] using h
      rw [hb]
      exact ⟨decodeLossy bytes, decodeLossy_slash bytes⟩

theorem text_ofPath {p : Path} (h : p.isAbsolute = true) :
    (ofPath p).text.toList = "file://".toList ++ encode p.chars := by
  rcases exists_chars_of_isAbsolute h with ⟨cs, hcs⟩
  unfold ofPath
  simp only [hcs, encode_slash, List.head?_cons, if_true, String.toList_ofList]

theorem toPath?_ofPath {p : Path} (h : p.isAbsolute = true) :
    toPath? (ofPath p) = some (.ofChars p.chars) := by
  have hpath : "file://".toList.isPrefixOf? ("file://".toList ++ encode p.chars) =
      some (encode p.chars) :=
    List.isPrefixOf?_eq_some_iff_append_eq.mpr rfl
  have hlocal : localPath? (encode p.chars) = some (encode p.chars) := by
    rcases exists_chars_of_isAbsolute h with ⟨cs, hcs⟩
    rw [hcs, encode_slash]
    rfl
  simp only [toPath?, text_ofPath h, hpath, Option.bind_eq_bind, Option.bind_some, hlocal,
    takeWhile_encode, decode_encode]
  rfl

theorem toPath?_ofPath_of_isText {p : Path} (h : p.isAbsolute = true) (htext : p.IsText) :
    toPath? (ofPath p) = some p := by
  rw [toPath?_ofPath h, htext]

/-!
## Paths of URIs
-/

theorem decode_slash (cs : List Char) : decode ('/' :: cs) = '/' :: decode cs := by
  unfold decode decodeLossy
  rw [decodeBytes_char (by decide), decodeFrom_char]

theorem exists_of_localPath? {rest path : List Char} (h : localPath? rest = some path) :
    exists more, path = '/' :: more := by
  unfold localPath? at h
  split at h
  · rename_i more
    exact ⟨more, (Option.some.inj h).symm⟩
  · split at h
    · split at h
      · cases h
      · rename_i hne
        rcases List.exists_cons_of_ne_nil hne with ⟨c, more, hmore⟩
        have hfirst := List.head?_dropWhile_not (· != '/') rest
        rw [hmore] at h hfirst
        have hc : c = '/' := by simpa using hfirst
        exact ⟨more, by rw [← Option.some.inj h, hc]⟩
    · cases h

theorem isAbsolute_of_toPath? {uri : Uri} {p : Path} (h : toPath? uri = some p) :
    p.isAbsolute = true := by
  simp only [toPath?, Option.bind_eq_bind, Option.bind_eq_some_iff] at h
  rcases h with ⟨rest, _, path, hpath, hp⟩
  rcases exists_of_localPath? hpath with ⟨more, hmore⟩
  rw [← Option.some.inj hp, hmore, List.takeWhile_cons_of_pos (by decide), decode_slash,
    Path.isAbsolute_ofChars]
  rfl

end FileUri
end ElmNavigator
