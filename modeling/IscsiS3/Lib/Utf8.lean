import Mathlib.Data.List.Basic

/-! Texts as lists of characters, with offsets in the bytes of their UTF-8 encoding.  A text can be
cut only between two characters. -/

namespace Utf8

def encode (s : List Char) : List UInt8 := s.flatMap String.utf8EncodeChar

/-- Cut a text after its first `n` bytes, unless that is inside a character or beyond the end. -/
def splitAt : (n : Nat) → List Char → Option (List Char × List Char)
  | 0, s => some ([], s)
  | _ + 1, [] => none
  | n + 1, c :: s =>
    if n + 1 < c.utf8Size then none
    else (splitAt (n + 1 - c.utf8Size) s).map fun (front, rest) => (c :: front, rest)

def slice (start stop : Nat) (s : List Char) : Option (List Char) :=
  (splitAt start s).bind fun (_, rest) => (splitAt (stop - start) rest).map Prod.fst

def IsAscii (c : Char) : Prop := c.utf8Size = 1

theorem encode_cons (c : Char) (s : List Char) :
    encode (c :: s) = String.utf8EncodeChar c ++ encode s := rfl

theorem encode_append (s t : List Char) : encode (s ++ t) = encode s ++ encode t :=
  List.flatMap_append

theorem length_encode_cons (c : Char) (s : List Char) :
    (encode (c :: s)).length = c.utf8Size + (encode s).length := by
  rw [encode_cons, List.length_append, String.length_utf8EncodeChar]

theorem length_encode_append (s t : List Char) :
    (encode (s ++ t)).length = (encode s).length + (encode t).length := by
  rw [encode_append, List.length_append]

theorem length_le_length_encode (s : List Char) : s.length ≤ (encode s).length := by
  induction s with
  | nil => exact Nat.le_refl 0
  | cons c s ih =>
    have hpos := c.utf8Size_pos
    rw [length_encode_cons, List.length_cons]
    omega

theorem length_encode_of_ascii {s : List Char} (h : ∀ c ∈ s, IsAscii c) :
    (encode s).length = s.length := by
  induction s with
  | nil => rfl
  | cons c s ih =>
    have hc : c.utf8Size = 1 := h c List.mem_cons_self
    rw [length_encode_cons, List.length_cons, ih fun d hd => h d (List.mem_cons_of_mem c hd), hc,
      Nat.add_comm]

theorem splitAt_eq_some {n : Nat} {s front rest : List Char} :
    splitAt n s = some (front, rest) ↔ s = front ++ rest ∧ (encode front).length = n := by
  induction s generalizing n front with
  | nil =>
    cases n with
    | zero =>
      simp only [splitAt, Option.some.injEq, Prod.mk.injEq]
      constructor
      · rintro ⟨rfl, rfl⟩
        exact ⟨rfl, rfl⟩
      · rintro ⟨h, -⟩
        obtain ⟨rfl, rfl⟩ := List.append_eq_nil_iff.mp h.symm
        exact ⟨rfl, rfl⟩
    | succ n =>
      simp only [splitAt]
      constructor
      · exact nofun
      · rintro ⟨h, hlen⟩
        obtain ⟨rfl, -⟩ := List.append_eq_nil_iff.mp h.symm
        cases hlen
  | cons c s ih =>
    have hpos := c.utf8Size_pos
    cases n with
    | zero =>
      simp only [splitAt, Option.some.injEq, Prod.mk.injEq]
      constructor
      · rintro ⟨rfl, rfl⟩
        exact ⟨rfl, rfl⟩
      · rintro ⟨h, hlen⟩
        have hle := length_le_length_encode front
        obtain rfl := List.length_eq_zero_iff.mp (by omega : front.length = 0)
        exact ⟨rfl, h⟩
    | succ n =>
      rw [splitAt]
      split
      · rename_i hlt
        constructor
        · exact nofun
        · rintro ⟨h, hlen⟩
          cases front with
          | nil => cases hlen
          | cons d front =>
            obtain ⟨rfl, -⟩ := List.cons.inj h
            rw [length_encode_cons] at hlen
            omega
      · rename_i hle
        constructor
        · intro h
          obtain ⟨⟨front', rest'⟩, hsplit, heq⟩ := Option.map_eq_some_iff.mp h
          obtain ⟨rfl, rfl⟩ := Prod.mk.inj heq
          obtain ⟨rfl, hlen⟩ := ih.mp hsplit
          refine ⟨rfl, ?_⟩
          rw [length_encode_cons]
          omega
        · rintro ⟨h, hlen⟩
          cases front with
          | nil => cases hlen
          | cons d front =>
            obtain ⟨rfl, rfl⟩ := List.cons.inj h
            rw [length_encode_cons] at hlen
            rw [ih.mpr ⟨rfl, by omega⟩]
            rfl

theorem slice_eq_some {start stop : Nat} {s part : List Char} :
    slice start stop s = some part ↔ ∃ front rest, s = front ++ part ++ rest ∧
      (encode front).length = start ∧ (encode part).length = stop - start := by
  unfold slice
  constructor
  · intro hslice
    obtain ⟨⟨front, tail⟩, hfront, hpart⟩ := Option.bind_eq_some_iff.mp hslice
    obtain ⟨⟨part', rest⟩, hsplit, rfl⟩ := Option.map_eq_some_iff.mp hpart
    obtain ⟨rfl, hlen⟩ := splitAt_eq_some.mp hfront
    obtain ⟨rfl, hlen'⟩ := splitAt_eq_some.mp hsplit
    exact ⟨front, rest, (List.append_assoc front part' rest).symm, hlen, hlen'⟩
  · rintro ⟨front, rest, rfl, hfront, hpart⟩
    rw [List.append_assoc, splitAt_eq_some.mpr ⟨rfl, hfront⟩, Option.bind_some]
    show (splitAt (stop - start) (part ++ rest)).map Prod.fst = some part
    rw [splitAt_eq_some.mpr ⟨rfl, hpart⟩]
    rfl

theorem slice_append {start stop : Nat} {front s : List Char} (h : (encode front).length = start) :
    slice start stop (front ++ s) = (splitAt (stop - start) s).map Prod.fst := by
  rw [slice, splitAt_eq_some.mpr ⟨rfl, h⟩, Option.bind_some]

theorem isAscii_iff {c : Char} : IsAscii c ↔ c.toNat ≤ 127 :=
  Char.utf8Size_eq_one_iff.trans UInt32.le_iff_toNat_le

theorem le_of_mem_utf8EncodeChar {c : Char} {x : UInt8} (hc : ¬IsAscii c)
    (hx : x ∈ String.utf8EncodeChar c) : 128 ≤ x.toNat := by
  have large : ∀ n size base : Nat, 0 < size → size + base ≤ 256 → 128 ≤ base →
      128 ≤ (UInt8.ofNat (n % size + base)).toNat := by
    intro n size base hsize htop hbase
    have hlt : n % size < size := Nat.mod_lt n hsize
    rw [UInt8.toNat_ofNat', Nat.mod_eq_of_lt (by omega)]
    omega
  have hv : ¬c.val.toNat ≤ 127 := fun h => hc (isAscii_iff.mpr h)
  unfold String.utf8EncodeChar at hx
  rw [if_neg hv] at hx
  split at hx
  · simp only [List.mem_cons, List.not_mem_nil, or_false] at hx
    rcases hx with rfl | rfl <;> exact large _ _ _ (by decide) (by decide) (by decide)
  · split at hx
    · simp only [List.mem_cons, List.not_mem_nil, or_false] at hx
      rcases hx with rfl | rfl | rfl <;> exact large _ _ _ (by decide) (by decide) (by decide)
    · simp only [List.mem_cons, List.not_mem_nil, or_false] at hx
      rcases hx with rfl | rfl | rfl | rfl <;>
        exact large _ _ _ (by decide) (by decide) (by decide)

theorem getElem_encode_eq {s : List Char} {n : Nat} {d : Char} (hd : IsAscii d) :
    (encode s)[n]? = some d.toUInt8 ↔
      ∃ front rest, s = front ++ d :: rest ∧ (encode front).length = n := by
  have hsmall := isAscii_iff.mp hd
  have hbyte : ∀ {c : Char}, IsAscii c → c.toUInt8.toNat = c.toNat := by
    intro c hc
    have := isAscii_iff.mp hc
    show c.toNat % 256 = c.toNat
    omega
  constructor
  · intro h
    induction s generalizing n with
    | nil => cases h
    | cons c s ih =>
      rw [encode_cons, List.getElem?_append, String.length_utf8EncodeChar] at h
      split at h
      · rename_i hn
        by_cases hc : IsAscii c
        · have hsize : c.utf8Size = 1 := hc
          obtain rfl : n = 0 := by omega
          rw [String.utf8EncodeChar_eq_singleton hc] at h
          have hval : c.toUInt8 = d.toUInt8 := by simpa using h
          have heq : c.toNat = d.toNat := by rw [← hbyte hc, hval, hbyte hd]
          rw [Char.toNat_inj.mp heq]
          exact ⟨[], s, rfl, rfl⟩
        · have hlarge := le_of_mem_utf8EncodeChar hc (List.mem_of_getElem? h)
          rw [hbyte hd] at hlarge
          omega
      · obtain ⟨front, rest, rfl, hlen⟩ := ih h
        refine ⟨c :: front, rest, rfl, ?_⟩
        rw [length_encode_cons]
        omega
  · rintro ⟨front, rest, rfl, rfl⟩
    rw [encode_append, encode_cons, String.utf8EncodeChar_eq_singleton hd]
    simp

end Utf8
