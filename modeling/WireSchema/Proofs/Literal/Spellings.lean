import WireSchema.Proofs.Literal.Octets

/-! # Spellings of octets

An octet is spelled by two hexadecimal digits in either case; blanks may stand anywhere in a
spelling, also between the two digits of an octet (`Spells`). Every spelling is read
(`octets?_of_spells`).

A text can also be read two bytes of its encoding at a time, each chunk being decoded by itself, so
that a character of several bytes may be cut in two. This gives the same octets (`byteOctets?_eq`):
what such a chunk has is a digit or a plus sign if anything is read from it, and these have one byte
each (`lt_of_chunks?`). -/

namespace WireSchema.Literal

variable {cs : List Char} {bs os : List UInt8} {c : Char} {o : UInt8}

/-! ### Spellings -/

/-- The text spells the octets. -/
inductive Spells : List Char → List UInt8 → Prop
  | nil : Spells [] []
  | blank {c : Char} {cs : List Char} {os : List UInt8} (hc : Text.isBlank c = true)
    (h : Spells cs os) : Spells (c :: cs) os
  | octet {a b : Char} {gap cs : List Char} {o : UInt8} {os : List UInt8}
    (ha : IsDigit 16 a (o.toNat / 16)) (hgap : ∀ c ∈ gap, Text.isBlank c = true)
    (hb : IsDigit 16 b (o.toNat % 16)) (h : Spells cs os) : Spells (a :: (gap ++ b :: cs)) (o :: os)

theorem isOctet_of_halves {a b : Char} (ha : IsDigit 16 a (o.toNat / 16))
    (hb : IsDigit 16 b (o.toNat % 16)) : IsOctet (a, b) o := by
  refine ⟨_, hb, Or.inr ⟨_, ha, ?_⟩⟩
  rw [Nat.div_add_mod, UInt8.ofNat_toNat]

/-- Without the blanks, a spelling is a pair of digits for each octet. -/
theorem Spells.pairs (h : Spells cs os) : ∃ ps : List (Char × Char),
    (cs.filter fun c => !Text.isBlank c) = ps.flatMap (fun p => [p.1, p.2]) ∧
      List.Forall₂ IsOctet ps os := by
  induction h with
  | nil => exact ⟨[], rfl, .nil⟩
  | blank hc _ ih =>
    obtain ⟨ps, hps, hos⟩ := ih
    exact ⟨ps, by rw [List.filter_cons_of_neg (by simp [hc]), hps], hos⟩
  | @octet a b gap cs o os ha hgap hb _ ih =>
    obtain ⟨ps, hps, hos⟩ := ih
    have hgap : (gap.filter fun c => !Text.isBlank c) = [] :=
      List.filter_eq_nil_iff.mpr fun c hc => by simp [hgap c hc]
    have hinked {d : Char} {n : Nat} (hd : IsDigit 16 d n) : (!Text.isBlank d) = true := by
      rw [isBlank_of_isNameRest (hd.isNameRest (Nat.le_refl 16))]
      rfl
    refine ⟨(a, b) :: ps, ?_, .cons (isOctet_of_halves ha hb) hos⟩
    simp only [List.filter_cons, hinked ha, hinked hb, List.filter_append, hgap, hps, if_true,
      List.nil_append, List.flatMap_cons, List.cons_append]

theorem octets?_of_spells {s : String} (h : Spells s.toList os) : octets? s = some os :=
  octets?_eq_some_iff.mpr h.pairs

/-! ### The bytes of a text -/

/-- The encoding of the characters. -/
def utf8 (cs : List Char) : List UInt8 := cs.flatMap String.utf8EncodeChar

/-- The characters that the bytes encode, if they are an encoding at all. -/
def decoded? (bs : List UInt8) : Option (List Char) := bs.toByteArray.utf8Decode?.map Array.toList

/-- The octet that a chunk of bytes writes. -/
def chunk? (bs : List UInt8) : Option UInt8 :=
  (((decoded? bs).bind (natural? 16)).filter (· < 256)).map UInt8.ofNat

/-- The octets that the bytes write, two bytes at a time. -/
def chunks? : List UInt8 → Option (List UInt8)
  | [] => some []
  | [x] => (chunk? [x]).map ([·])
  | x :: y :: bs => (chunk? [x, y]).bind fun o => (chunks? bs).map (o :: ·)

/-- The octets that the bytes of a literal write, once the blanks are taken out of it. -/
def byteOctets? (s : String) : Option (List UInt8) :=
  if (utf8 (inked s)).length % 2 = 0 then chunks? (utf8 (inked s)) else none

theorem decoded?_eq_some_iff : decoded? bs = some cs ↔ utf8 cs = bs := by
  have hencode (cs : List Char) : (utf8 cs).toByteArray = cs.utf8Encode := rfl
  unfold decoded?
  rw [Option.map_eq_some_iff]
  constructor
  · rintro ⟨xs, hxs, rfl⟩
    have hbytes : xs.toList.utf8Encode = bs.toByteArray := by
      have hget := ByteArray.utf8Encode_get_utf8Decode? (h := Option.isSome_of_eq_some hxs)
      rwa [Option.get_of_eq_some _ hxs] at hget
    rw [← hencode] at hbytes
    have hdata := congrArg (fun b : ByteArray => b.data.toList) hbytes
    simpa using hdata
  · rintro rfl
    exact ⟨cs.toArray, by rw [hencode, List.utf8Decode?_utf8Encode], by simp⟩

/-- A character of one byte is that byte. -/
theorem utf8EncodeChar_of_lt (h : c.toNat < 128) :
    String.utf8EncodeChar c = [UInt8.ofNat c.toNat] :=
  if_pos (Nat.le_of_lt_succ h)

/-- The first byte of a character of several bytes is not one of a single byte. -/
theorem exists_byte_of_le (h : 128 ≤ c.toNat) :
    ∃ b ∈ String.utf8EncodeChar c, 128 ≤ b.toNat := by
  have hne : ¬ c.val.toNat ≤ 0x7f := Nat.not_le.mpr h
  unfold String.utf8EncodeChar
  dsimp only
  rw [if_neg hne]
  split_ifs
  all_goals
    refine ⟨_, List.mem_cons_self, ?_⟩
    rw [UInt8.toNat_ofNat']
    omega

theorem utf8_of_lt (h : ∀ c ∈ cs, c.toNat < 128) :
    utf8 cs = cs.map fun c => UInt8.ofNat c.toNat := by
  rw [utf8, List.flatMap_congr fun c hc => utf8EncodeChar_of_lt (h c hc), List.map_eq_flatMap]

theorem lt_of_utf8 (h : ∀ b ∈ utf8 cs, b.toNat < 128) : ∀ c ∈ cs, c.toNat < 128 := by
  intro c hc
  by_contra hge
  obtain ⟨b, hb, hle⟩ := exists_byte_of_le (Nat.le_of_not_lt hge)
  exact absurd (h b (List.mem_flatMap.mpr ⟨c, hc, hb⟩)) (Nat.not_lt.mpr hle)

/-! ### What is read has one byte each -/

theorem IsDigit.lt {radix d : Nat} (h : IsDigit radix c d) (hradix : radix ≤ 16) : c.toNat < 128 :=
  (toNat_of_isNameRest (h.isNameRest hradix)).2.trans_lt (by decide)

theorem lt_of_natural? {n : Nat} (h : natural? 16 cs = some n) : ∀ c ∈ cs, c.toNat < 128 := by
  obtain ⟨plus, ds, rfl, hplus, hds⟩ := (natural?_eq_some_iff (Nat.le_refl 16)).mp h
  refine List.forall_mem_append.mpr ⟨?_, fun c hc => ?_⟩
  · rcases hplus with rfl | rfl
    · exact List.forall_mem_nil _
    · exact List.forall_mem_singleton.mpr (by decide)
  · obtain ⟨d, hd⟩ := hds.isDigit c hc
    exact hd.lt (Nat.le_refl 16)

theorem lt_of_pairs? (h : pairs? cs = some os) : ∀ c ∈ cs, c.toNat < 128 := by
  induction cs using pairs?.induct generalizing os with
  | case1 => exact List.forall_mem_nil _
  | case2 => cases h
  | case3 a b cs ih =>
    rw [pairs?, Option.bind_eq_some_iff] at h
    obtain ⟨o, ho, h⟩ := h
    obtain ⟨os, hos, -⟩ := Option.map_eq_some_iff.mp h
    obtain ⟨n, hn, -⟩ := Option.map_eq_some_iff.mp ho
    exact List.forall_mem_append.mpr ⟨lt_of_natural? hn, ih hos⟩

theorem lt_of_chunk? (h : chunk? bs = some o) : ∀ b ∈ bs, b.toNat < 128 := by
  obtain ⟨n, hn, -⟩ := Option.map_eq_some_iff.mp h
  obtain ⟨cs, hcs, hn⟩ := Option.bind_eq_some_iff.mp (Option.filter_eq_some_iff.mp hn).1
  have hlt := lt_of_natural? hn
  rw [← decoded?_eq_some_iff.mp hcs, utf8_of_lt hlt]
  refine List.forall_mem_map.mpr fun c hc => ?_
  rw [UInt8.toNat_ofNat']
  exact Nat.mod_lt_of_lt (hlt c hc)

/-- **What is read from chunks of bytes has one byte each.** -/
theorem lt_of_chunks? (h : chunks? bs = some os) : ∀ b ∈ bs, b.toNat < 128 := by
  induction bs using chunks?.induct generalizing os with
  | case1 => exact List.forall_mem_nil _
  | case2 x =>
    obtain ⟨o, ho, -⟩ := Option.map_eq_some_iff.mp h
    exact lt_of_chunk? ho
  | case3 x y bs ih =>
    rw [chunks?, Option.bind_eq_some_iff] at h
    obtain ⟨o, ho, h⟩ := h
    obtain ⟨os, hos, -⟩ := Option.map_eq_some_iff.mp h
    exact List.forall_mem_append.mpr ⟨lt_of_chunk? ho, ih hos⟩

/-! ### Both readers -/

/-- Two digits write less than 256. -/
theorem natural?_pair_lt {a b : Char} {n : Nat} (h : natural? 16 [a, b] = some n) : n < 256 := by
  obtain ⟨plus, ds, hab, rfl | rfl, hds⟩ := (natural?_eq_some_iff (Nat.le_refl 16)).mp h
  · obtain rfl : [a, b] = ds := hab
    obtain ⟨hi, lo, hhi, hlo, rfl⟩ := numeral_pair_iff.mp hds
    have hhi : hi < 16 := hhi.1
    have hlo : lo < 16 := hlo.1
    omega
  · obtain ⟨-, rfl⟩ := List.cons_eq_cons.mp hab
    have hlo : n < 16 := (numeral_singleton_iff.mp hds).1
    omega

/-- A chunk of two characters is read like a pair of them. -/
theorem chunk?_utf8_pair (a b : Char) : chunk? (utf8 [a, b]) = octet? a b := by
  rw [chunk?, decoded?_eq_some_iff.mpr rfl, Option.bind_some, octet?]
  cases h : natural? 16 [a, b] with
  | none => rfl
  | some n =>
    have hlt : n < 256 := natural?_pair_lt h
    simp [hlt]

/-- Characters of one byte each are read alike. -/
theorem chunks?_utf8 (h : ∀ c ∈ cs, c.toNat < 128) (heven : cs.length % 2 = 0) :
    chunks? (utf8 cs) = pairs? cs := by
  induction cs using pairs?.induct with
  | case1 => rfl
  | case2 => simp at heven
  | case3 a b cs ih =>
    obtain ⟨hpair, hcs⟩ := List.forall_mem_append.mp (show ∀ c ∈ [a, b] ++ cs, _ from h)
    have heven : cs.length % 2 = 0 := by
      rw [List.length_cons, List.length_cons] at heven
      omega
    have hbytes : utf8 ([a, b] ++ cs) = utf8 [a, b] ++ utf8 cs := List.flatMap_append
    have hchunk := chunk?_utf8_pair a b
    rw [utf8_of_lt hpair] at hbytes hchunk
    change chunks? (utf8 ([a, b] ++ cs)) = _
    rw [hbytes, pairs?, ← hchunk, ← ih hcs heven]
    rfl

theorem length_of_pairs? (h : pairs? cs = some os) : cs.length % 2 = 0 := by
  obtain ⟨ps, rfl, -⟩ := pairs?_eq_some_iff.mp h
  rw [List.length_flatMap]
  simp

/-- **A text can be read two bytes at a time.** -/
theorem byteOctets?_eq (s : String) : byteOctets? s = octets? s := by
  change byteOctets? s = pairs? (inked s)
  unfold byteOctets?
  by_cases hlt : ∀ c ∈ inked s, c.toNat < 128
  · have hlength : (utf8 (inked s)).length = (inked s).length := by
      rw [utf8_of_lt hlt, List.length_map]
    rw [hlength]
    split_ifs with heven
    · exact chunks?_utf8 hlt heven
    · exact (Option.eq_none_iff_forall_ne_some.mpr fun os h => heven (length_of_pairs? h)).symm
  · have hchunks : chunks? (utf8 (inked s)) = none :=
      Option.eq_none_iff_forall_ne_some.mpr fun os h => hlt (lt_of_utf8 (lt_of_chunks? h))
    have hpairs : pairs? (inked s) = none :=
      Option.eq_none_iff_forall_ne_some.mpr fun os h => hlt (lt_of_pairs? h)
    rw [hchunks, hpairs, ite_self]

/-- **Octets are read from their spellings.** Every spelling of octets, with digits in either case
and any blanks anywhere, is read as these octets. Where the text without its blanks has an odd
number of bytes, or a character of several bytes, nothing is read. Reading it two bytes at a time,
whether or not they cut a character in two, gives the same. -/
theorem spellings_are_read :
    (∀ s os, Spells s.toList os → octets? s = some os) ∧
    (∀ s, (utf8 (inked s)).length % 2 = 1 ∨ (∃ c ∈ inked s, 1 < c.utf8Size) →
      octets? s = none) ∧
    ∀ s, byteOctets? s = octets? s := by
  refine ⟨fun s os h => octets?_of_spells h, fun s h => ?_, byteOctets?_eq⟩
  rcases h with hodd | ⟨c, hc, hsize⟩
  · rw [← byteOctets?_eq, byteOctets?, if_neg (by omega)]
  · refine Option.eq_none_iff_forall_ne_some.mpr fun os h => ?_
    have hlt : c.toNat < 128 := lt_of_pairs? h c hc
    rw [← String.length_utf8EncodeChar, utf8EncodeChar_of_lt hlt] at hsize
    exact absurd hsize (Nat.lt_irrefl 1)

/-- Two octets with blanks in them, a text of an odd number of digits, and one whose second
character lies in both of its chunks. -/
theorem read_spaced_and_cut :
    Spells "d\u3000E a\tD".toList [0xDE, 0xAD] ∧ octets? "d\u3000E a\tD" = some [0xDE, 0xAD] ∧
    (utf8 (inked "ab c")).length % 2 = 1 ∧ octets? "ab c" = none ∧
    (∃ c ∈ inked "aéb", 1 < c.utf8Size) ∧ octets? "aéb" = none := by
  have hgap {c : Char} (hc : Text.isBlank c = true) : ∀ d ∈ [c], Text.isBlank d = true :=
    List.forall_mem_singleton.mpr hc
  have hlast : Spells "a\tD".toList [0xAD] :=
    @Spells.octet 'a' 'D' ['\t'] [] 0xAD [] (by decide) (hgap (by decide)) (by decide) .nil
  have hspells : Spells "d\u3000E a\tD".toList [0xDE, 0xAD] :=
    @Spells.octet 'd' 'E' ['\u3000'] " a\tD".toList 0xDE [0xAD] (by decide) (hgap (by decide))
      (by decide) (.blank (by decide) hlast)
  have hodd : (utf8 (inked "ab c")).length % 2 = 1 := by decide
  have hcut : ∃ c ∈ inked "aéb", 1 < c.utf8Size := ⟨'é', by decide, by decide⟩
  exact ⟨hspells, spellings_are_read.1 _ _ hspells, hodd,
    spellings_are_read.2.1 _ (Or.inl hodd), hcut, spellings_are_read.2.1 _ (Or.inr hcut)⟩

end WireSchema.Literal
