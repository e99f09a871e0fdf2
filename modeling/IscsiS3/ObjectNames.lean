import IscsiS3.Compression
import IscsiS3.Names

/-! The pool of a copy-on-write volume: live pointers, and the names of the objects that they name.
A name is a hash in hexadecimal under two levels of directories. -/

namespace IscsiS3

def hashLen : Nat := 32

@[ext] structure Hash where
  bytes : Bytes
  length_bytes : bytes.length = hashLen
  deriving DecidableEq, Repr

def ptrMagic : Bytes := [73, 83, 67, 80]

def ptrAlgoBlake3 : UInt8 := 1

def ptrLen : Nat := 4 + 1 + hashLen

def encodePointer (hash : Hash) : Bytes := ptrMagic ++ [ptrAlgoBlake3] ++ hash.bytes

def decodePointer (bytes : Bytes) : Except StoreError Hash :=
  if h : bytes.length ≠ ptrLen then
    .error (.other ("invalid cow pointer length " ++ toString bytes.length))
  else if bytes.take 4 ≠ ptrMagic then .error (.other "invalid cow pointer magic")
  else if bytes[4]?.getD 0 ≠ ptrAlgoBlake3 then
    .error (.other ("unsupported pointer hash algo " ++ toString (bytes[4]?.getD 0).toNat))
  else .ok ⟨bytes.drop 5, by
    have : bytes.length = 37 := Decidable.not_not.mp h
    simp [this, hashLen]⟩

theorem decodePointer_encodePointer (hash : Hash) :
    decodePointer (encodePointer hash) = .ok hash := by
  obtain ⟨bytes, hlen⟩ := hash
  have h : ¬(encodePointer ⟨bytes, hlen⟩).length ≠ ptrLen := by
    simp [encodePointer, ptrMagic, ptrLen, hlen, hashLen]
  unfold decodePointer
  rw [dif_neg h]
  simp [encodePointer, ptrMagic]

theorem encodePointer_inj {a b : Hash} (h : encodePointer a = encodePointer b) : a = b := by
  have := decodePointer_encodePointer a
  rw [h, decodePointer_encodePointer] at this
  exact (Except.ok.inj this).symm

def hashHex (hash : Hash) : Str := hash.bytes.flatMap fun b => hex 2 b.toNat

/-- Two directory levels of two characters each. -/
def shardObjectName (name : Str) : Str :=
  if name.length < 4 then name
  else name.take 2 ++ '/' :: (name.drop 2).take 2 ++ '/' :: name.drop 4

def objectRelpath (hash : Hash) : Str := shardObjectName (hashHex hash)

def splitShardedName (rel : Str) : Outcome (Option (Str × Str × Str)) :=
  if (Utf8.encode rel).length < 6 ∨ ¬HasSlashes rel then .ok none
  else (byteSlice 6 (Utf8.encode rel).length rel).bind fun rest =>
    if '/' ∈ rest then .ok none
    else (byteSlice 0 2 rel).bind fun a => (byteSlice 3 5 rel).bind fun b =>
      .ok (some (a, b, rest))

/-- The loop of `parse_hash_hex` from pair `i` on, for `n` pairs. -/
def parseHexLoop (s : Str) : (n i : Nat) → Outcome Bytes
  | 0, _ => .ok []
  | n + 1, i => (byteSlice (i * 2) (i * 2 + 2) s).bind fun pair =>
    match fromStrRadix 256 pair with
    | none => .error (.other "invalid blake3 hex: invalid digit found in string")
    | some b => (parseHexLoop s n (i + 1)).map (UInt8.ofNat b :: ·)

variable {s : Str} {bytes : Bytes} {a b : Char} {n i : Nat}

theorem length_parseHexLoop (h : parseHexLoop s n i = .ok bytes) :
    bytes.length = n := by
  induction n generalizing i bytes with
  | zero =>
    cases h
    rfl
  | succ n ih =>
    rw [parseHexLoop] at h
    obtain ⟨pair, -, h⟩ := Outcome.bind_eq_ok.mp h
    split at h
    · cases h
    · obtain ⟨rest, hrest, rfl⟩ := Outcome.map_eq_ok.mp h
      rw [List.length_cons, ih hrest]

def parseHashHex (s : Str) : Outcome Hash :=
  if (Utf8.encode s).length ≠ hashLen * 2 then
    .error (.other ("invalid blake3 hex length " ++ toString (Utf8.encode s).length))
  else match h : parseHexLoop s hashLen 0 with
    | .ok bytes => .ok ⟨bytes, length_parseHexLoop h⟩
    | .error e => .error e
    | .panic => .panic
    | .waits => .waits

/-- The hash that the key of a pool object names, relative to the pool. -/
def hashFromObjectRelpath (rel : Str) : Outcome (Option Hash) :=
  (splitShardedName rel).bind fun
    | none => .ok none
    | some (a, b, rest) => (parseHashHex (a ++ b ++ rest)).toOption

def parseHexPairs : Str → Option Bytes
  | [] => some []
  | [_] => none
  | a :: b :: rest => match fromStrRadix 256 [a, b] with
    | none => none
    | some n => (parseHexPairs rest).map (UInt8.ofNat n :: ·)

/-- Read two bytes at a time, the text has numbers up to a pair that ends inside a character. -/
inductive Torn : Str → Prop
  | here {s : Str} (hs : s ≠ []) (h : Utf8.splitAt 2 s = none) : Torn s
  | later {a b : Char} {s : Str} (h : fromStrRadix 256 [a, b] ≠ none) (hs : Torn s) :
    Torn (a :: b :: s)

theorem two_of_fromStrRadix {pair : Str} {n : Nat} (hlen : (Utf8.encode pair).length = 2)
    (h : fromStrRadix 256 pair = some n) : ∃ a b, pair = [a, b] := by
  rw [Utf8.length_encode_of_ascii (ascii_of_fromStrRadix h)] at hlen
  exact List.length_eq_two.mp hlen

theorem splitAt_two_of_fromStrRadix (h : fromStrRadix 256 [a, b] ≠ none) :
    Utf8.splitAt 2 (a :: b :: s) = some ([a, b], s) := by
  obtain ⟨n, hn⟩ := Option.ne_none_iff_exists'.mp h
  exact Utf8.splitAt_eq_some.mpr ⟨rfl, Utf8.length_encode_of_ascii (ascii_of_fromStrRadix hn)⟩

theorem torn_cons (h : fromStrRadix 256 [a, b] ≠ none) :
    Torn (a :: b :: s) ↔ Torn s := by
  constructor
  · intro htorn
    cases htorn with
    | here _ hsplit => simp [splitAt_two_of_fromStrRadix h] at hsplit
    | later _ hs => exact hs
  · exact .later h

theorem not_torn_of_pair {pair s : Str} (hlen : (Utf8.encode pair).length = 2)
    (h : fromStrRadix 256 pair = none) : ¬Torn (pair ++ s) := by
  have hsplit : Utf8.splitAt 2 (pair ++ s) = some (pair, s) := Utf8.splitAt_eq_some.mpr ⟨rfl, hlen⟩
  generalize pair ++ s = text at hsplit
  intro htorn
  cases htorn with
  | here _ hnone =>
    rw [hsplit] at hnone
    cases hnone
  | later hpair _ =>
    rw [splitAt_two_of_fromStrRadix hpair] at hsplit
    obtain ⟨rfl, -⟩ := Prod.mk.inj (Option.some.inj hsplit)
    exact hpair h

theorem ascii_of_parseHexPairs (h : parseHexPairs s = some bytes) :
    (∀ c ∈ s, Utf8.IsAscii c) ∧ s.length = 2 * bytes.length := by
  fun_induction parseHexPairs s generalizing bytes with
  | case1 =>
    cases h
    exact ⟨nofun, rfl⟩
  | case2 | case3 => cases h
  | case4 a b rest n hn ih =>
    obtain ⟨tail, htail, rfl⟩ := Option.map_eq_some_iff.mp h
    obtain ⟨hascii, hlen⟩ := ih htail
    have hpair := ascii_of_fromStrRadix hn
    constructor
    · intro c hc
      rcases List.mem_append.mp (show c ∈ [a, b] ++ rest from hc) with hc | hc
      · exact hpair c hc
      · exact hascii c hc
    · simp only [List.length_cons]
      omega

theorem parseHexPairs_of_splitAt (hs : s ≠ []) (h : parseHexPairs s = some bytes) :
    ∃ a b rest, s = a :: b :: rest ∧ fromStrRadix 256 [a, b] ≠ none := by
  match s, hs, h with
  | a :: b :: rest, _, h =>
    refine ⟨a, b, rest, rfl, fun hnone => ?_⟩
    rw [parseHexPairs, hnone] at h
    cases h

theorem not_torn_nil : ¬Torn [] := by
  intro h
  cases h with
  | here hs _ => exact hs rfl

/-- What the loop gives: the bytes of the pairs, a panic on a torn text, and otherwise an error. -/
theorem parseHexLoop_spec (front : Str) (hfront : (Utf8.encode front).length = i * 2)
    (hs : (Utf8.encode s).length = n * 2) :
    (∃ bytes, parseHexLoop (front ++ s) n i = .ok bytes ∧ parseHexPairs s = some bytes ∧ ¬Torn s) ∨
    (parseHexLoop (front ++ s) n i = .panic ∧ parseHexPairs s = none ∧ Torn s) ∨
    (∃ e, parseHexLoop (front ++ s) n i = .error e ∧ parseHexPairs s = none ∧ ¬Torn s) := by
  induction n generalizing front s i with
  | zero =>
    obtain rfl : s = [] := List.length_eq_zero_iff.mp
      (by have := Utf8.length_le_length_encode s; omega)
    exact .inl ⟨[], rfl, rfl, not_torn_nil⟩
  | succ n ih =>
    have hne : s ≠ [] := by
      rintro rfl
      cases hs
    have hcut : Utf8.slice (i * 2) (i * 2 + 2) (front ++ s) = (Utf8.splitAt 2 s).map Prod.fst := by
      rw [Utf8.slice_append hfront, Nat.add_sub_cancel_left]
    rw [parseHexLoop, byteSlice, hcut]
    cases hsplit : Utf8.splitAt 2 s with
    | none =>
      refine .inr (.inl ⟨rfl, ?_, .here hne hsplit⟩)
      cases hpairs : parseHexPairs s with
      | none => rfl
      | some bytes =>
        obtain ⟨a, b, rest, rfl, hpair⟩ := parseHexPairs_of_splitAt hne hpairs
        rw [splitAt_two_of_fromStrRadix hpair] at hsplit
        cases hsplit
    | some parts =>
      obtain ⟨pair, rest⟩ := parts
      obtain ⟨rfl, hlen⟩ := Utf8.splitAt_eq_some.mp hsplit
      simp only [Option.map_some, Outcome.bind]
      cases hread : fromStrRadix 256 pair with
      | none =>
        refine .inr (.inr ⟨_, rfl, ?_, not_torn_of_pair hlen hread⟩)
        cases hpairs : parseHexPairs (pair ++ rest) with
        | none => rfl
        | some bytes =>
          obtain ⟨a, b, tail, heq, hpair⟩ := parseHexPairs_of_splitAt hne hpairs
          rw [heq, splitAt_two_of_fromStrRadix hpair] at hsplit
          obtain ⟨rfl, -⟩ := Prod.mk.inj (Option.some.inj hsplit)
          exact absurd hread hpair
      | some v =>
        obtain ⟨a, b, rfl⟩ := two_of_fromStrRadix hlen hread
        have hnum : fromStrRadix 256 [a, b] ≠ none := by simp [hread]
        have hfront' : (Utf8.encode (front ++ [a, b])).length = (i + 1) * 2 := by
          rw [Utf8.length_encode_append, hfront, hlen]
          omega
        have hs' : (Utf8.encode rest).length = n * 2 := by
          rw [Utf8.length_encode_append, hlen] at hs
          omega
        have hih := ih (front ++ [a, b]) hfront' hs'
        rw [List.append_assoc] at hih
        simp only [List.cons_append, List.nil_append] at hih ⊢
        rw [parseHexPairs, hread]
        simp only [torn_cons hnum]
        rcases hih with ⟨bytes, hok, hpairs, htorn⟩ | ⟨hpanic, hpairs, htorn⟩ | ⟨e,
          herr, hpairs, htorn⟩
        · exact .inl ⟨UInt8.ofNat v :: bytes, by rw [hok]; rfl, by rw [hpairs]; rfl, htorn⟩
        · exact .inr (.inl ⟨by rw [hpanic]; rfl, by rw [hpairs]; rfl, htorn⟩)
        · exact .inr (.inr ⟨e, by rw [herr]; rfl, by rw [hpairs]; rfl, htorn⟩)

theorem parseHashHex_spec (hs : (Utf8.encode s).length = 64) :
    (∃ hash, parseHashHex s = .ok hash ∧ parseHexPairs s = some hash.bytes ∧ ¬Torn s) ∨
    (parseHashHex s = .panic ∧ parseHexPairs s = none ∧ Torn s) ∨
    (∃ e, parseHashHex s = .error e ∧ parseHexPairs s = none ∧ ¬Torn s) := by
  have hspec := parseHexLoop_spec [] (n := hashLen) (i := 0) rfl hs
  rw [List.nil_append] at hspec
  unfold parseHashHex
  rw [if_neg (by simp [hs, hashLen])]
  split
  all_goals
    rename_i hloop
    simp only [hloop, Outcome.ok.injEq, Outcome.error.injEq, reduceCtorEq, false_and, exists_false,
      false_or, or_false, exists_eq_left'] at hspec
  · exact .inl ⟨_, rfl, hspec⟩
  · exact .inr (.inr ⟨_, rfl, hspec⟩)
  · exact .inr (.inl ⟨rfl, hspec.2⟩)

theorem length_hashHex (hash : Hash) : (hashHex hash).length = 64 := by
  have h : ∀ bytes : Bytes, (bytes.flatMap fun b => hex 2 b.toNat).length = 2 * bytes.length := by
    intro bytes
    induction bytes with
    | nil => rfl
    | cons b bytes ih =>
      rw [List.flatMap_cons, List.length_append, ih, length_hex, List.length_cons]
      omega
  rw [hashHex, h, hash.length_bytes]
  rfl

theorem slash_notMem_hashHex (hash : Hash) : '/' ∉ hashHex hash := by
  intro h
  obtain ⟨b, -, hb⟩ := List.mem_flatMap.mp h
  exact absurd (mem_hex hb) (by decide)

theorem parseHexPairs_hashHex (bytes : Bytes) :
    parseHexPairs (bytes.flatMap fun b => hex 2 b.toNat) = some bytes := by
  induction bytes with
  | nil => rfl
  | cons b bytes ih =>
    have hlt : b.toNat < 256 := b.toNat_lt
    have hlen : (hex 2 b.toNat).length = 2 := length_hex 2 _
    obtain ⟨x, y, hxy⟩ := List.length_eq_two.mp hlen
    have hread : fromStrRadix 256 [x, y] = some b.toNat := by
      rw [← hxy]
      exact fromStrRadix_hex (by decide) (by simpa using hlt) hlt
    rw [List.flatMap_cons, hxy, List.cons_append, List.cons_append, List.nil_append, parseHexPairs,
      hread]
    simp [ih]

theorem lower_of_parseHexPairs (h : parseHexPairs s = some bytes) (hplus : '+' ∉ s) :
    lower s = bytes.flatMap fun b => hex 2 b.toNat := by
  fun_induction parseHexPairs s generalizing bytes with
  | case1 =>
    cases h
    rfl
  | case2 | case3 => cases h
  | case4 a b rest n hn ih =>
    obtain ⟨tail, htail, rfl⟩ := Option.map_eq_some_iff.mp h
    have hpair : lower [a, b] = hex 2 n :=
      lower_of_fromStrRadix hn fun hmem => hplus (List.mem_append_left rest hmem)
    have hrest := ih htail fun hmem => hplus (List.mem_append_right [a, b] hmem)
    have hbyte : (UInt8.ofNat n).toNat = n := by
      rw [UInt8.toNat_ofNat', Nat.mod_eq_of_lt (fromStrRadix_lt hn)]
    rw [List.flatMap_cons, hbyte, ← hpair, ← hrest]
    rfl

/-- `name` is what the parser takes for the digits of an object's name. -/
def ObjectName (rel name : Str) : Prop :=
  ∃ a b rest, TwoLevels rel a b rest ∧ '/' ∉ rest ∧ name = a ++ b ++ rest ∧
    (Utf8.encode name).length = 64

theorem splitShardedName_of_twoLevels {rel a b rest : Str} (h : TwoLevels rel a b rest) :
    splitShardedName rel = .ok (if '/' ∈ rest then none else some (a, b, rest)) := by
  have hlen := h.length
  have ha := h.first
  have hb := h.second
  rw [Utf8.length_encode_append, Utf8.length_encode_append] at hlen
  have hshort : ¬((Utf8.encode rel).length < 6 ∨ ¬HasSlashes rel) := by
    rintro (hlt | hno)
    · omega
    · exact hno (hasSlashes_iff.mpr ⟨a, b, rest, h⟩)
  rw [splitShardedName, if_neg hshort, h.byteSlice_rest, h.byteSlice_first, h.byteSlice_second]
  simp only [Outcome.bind]
  split <;> rfl

theorem splitShardedName_of_not {rel : Str} (h : ¬∃ a b rest, TwoLevels rel a b rest) :
    splitShardedName rel = .ok none := by
  rw [splitShardedName, if_pos (.inr (mt hasSlashes_iff.mp h))]

variable {rel name : Str}

theorem hashFromObjectRelpath_of_name (h : ObjectName rel name) :
    hashFromObjectRelpath rel = (parseHashHex name).toOption := by
  obtain ⟨a, b, rest, hlevels, hslash, rfl, -⟩ := h
  rw [hashFromObjectRelpath, splitShardedName_of_twoLevels hlevels, if_neg hslash]
  rfl

theorem hashFromObjectRelpath_of_not {rel : Str} (h : ¬∃ name, ObjectName rel name) :
    hashFromObjectRelpath rel = .ok none := by
  unfold hashFromObjectRelpath
  by_cases hlevels : ∃ a b rest, TwoLevels rel a b rest
  · obtain ⟨a, b, rest, hlevels⟩ := hlevels
    rw [splitShardedName_of_twoLevels hlevels]
    split
    · rfl
    · rename_i hslash
      have hlen : (Utf8.encode (a ++ b ++ rest)).length ≠ hashLen * 2 := fun hlen =>
        h ⟨_, a, b, rest, hlevels, hslash, rfl, hlen⟩
      simp only [Outcome.bind, parseHashHex, if_pos hlen]
      rfl
  · rw [splitShardedName_of_not hlevels]
    rfl

theorem lower_objectName (h : ObjectName rel name) (hascii : ∀ c ∈ name, Utf8.IsAscii c) :
    lower rel = shardObjectName (lower name) := by
  obtain ⟨a, b, rest, hlevels, -, rfl, hlen⟩ := h
  have ha : a.length = 2 := by
    rw [← Utf8.length_encode_of_ascii fun c hc => hascii c (by simp [hc]), hlevels.first]
  have hb : b.length = 2 := by
    rw [← Utf8.length_encode_of_ascii fun c hc => hascii c (by simp [hc]), hlevels.second]
  obtain ⟨a₁, a₂, rfl⟩ := List.length_eq_two.mp ha
  obtain ⟨b₁, b₂, rfl⟩ := List.length_eq_two.mp hb
  rw [hlevels.parts]
  simp [shardObjectName, lower]

theorem objectName_objectRelpath (hash : Hash) :
    ObjectName (objectRelpath hash) (hashHex hash) := by
  have hlen := length_hashHex hash
  have hslash := slash_notMem_hashHex hash
  have hascii := (ascii_of_parseHexPairs (parseHexPairs_hashHex hash.bytes)).1
  unfold objectRelpath
  rw [← hashHex] at hascii
  generalize hashHex hash = name at hlen hslash hascii
  match name, hlen, hslash, hascii with
  | a :: b :: c :: d :: rest, hlen, hslash, hascii =>
    refine ⟨[a, b], [c, d], rest, ⟨by simp [shardObjectName], ?_, ?_⟩,
      fun h => hslash (by simp [h]), rfl, ?_⟩
    · exact Utf8.length_encode_of_ascii fun x hx => hascii x (by simp at hx ⊢; tauto)
    · exact Utf8.length_encode_of_ascii fun x hx => hascii x (by simp at hx ⊢; tauto)
    · rw [Utf8.length_encode_of_ascii hascii, hlen]

theorem hashFromObjectRelpath_objectRelpath (hash : Hash) :
    hashFromObjectRelpath (objectRelpath hash) = .ok (some hash) := by
  have hname := objectName_objectRelpath hash
  have hpairs : parseHexPairs (hashHex hash) = some hash.bytes := parseHexPairs_hashHex hash.bytes
  rw [hashFromObjectRelpath_of_name hname]
  obtain ⟨-, -, -, -, -, -, hlen⟩ := hname
  rcases parseHashHex_spec hlen with ⟨x, hok, hx, -⟩ | ⟨-, hnone, -⟩ | ⟨-, -, hnone, -⟩
  · rw [hpairs] at hx
    rw [hok, Hash.ext (Option.some.inj hx)]
    rfl
  · rw [hpairs] at hnone
    cases hnone
  · rw [hpairs] at hnone
    cases hnone

theorem objectRelpath_inj {a b : Hash} (h : objectRelpath a = objectRelpath b) : a = b := by
  have := hashFromObjectRelpath_objectRelpath a
  rw [h, hashFromObjectRelpath_objectRelpath] at this
  exact (Option.some.inj (Outcome.ok.inj this)).symm

theorem plus_mem_objectName (h : ObjectName rel name) : '+' ∈ rel ↔ '+' ∈ name := by
  obtain ⟨a, b, rest, hlevels, -, rfl, -⟩ := h
  rw [hlevels.parts]
  simp

theorem plus_notMem_objectRelpath (hash : Hash) : '+' ∉ objectRelpath hash := by
  intro h
  obtain ⟨b, -, hb⟩ := List.mem_flatMap.mp
    ((plus_mem_objectName (objectName_objectRelpath hash)).mp h)
  exact plus_notMem_hex 2 _ hb

/-- Every object's name is read back as its hash.  Any text is read without a panic, and only as a
hash that it names up to capitals, unless a pair of the bytes between its directories ends inside a
character or a sign stands in one of them. -/
theorem object_names_correspond (hash : Hash) (rel : Str) :
    hashFromObjectRelpath (objectRelpath hash) = .ok (some hash) ∧
    ((∃ found, hashFromObjectRelpath rel = .ok found ∧
        ∀ hash, found = some hash → lower rel = objectRelpath hash) ↔
      ∀ name, ObjectName rel name → ¬Torn name ∧ (parseHexPairs name ≠ none → '+' ∉ name)) := by
  refine ⟨hashFromObjectRelpath_objectRelpath hash, ?_, fun h => ?_⟩
  · rintro ⟨found, hfound, hnames⟩ name hname
    obtain ⟨-, -, -, -, -, -, hlen⟩ := id hname
    rw [hashFromObjectRelpath_of_name hname] at hfound
    rcases parseHashHex_spec hlen with ⟨x, hok, -, htorn⟩ | ⟨hpanic, -, -⟩ | ⟨e, -, hnone, htorn⟩
    · rw [hok] at hfound
      cases hfound
      refine ⟨htorn, fun _ hplus => plus_notMem_objectRelpath x ?_⟩
      rw [← hnames x rfl]
      exact plus_mem_lower ((plus_mem_objectName hname).mpr hplus)
    · rw [hpanic] at hfound
      cases hfound
    · exact ⟨htorn, fun hsome => absurd hnone hsome⟩
  · by_cases hname : ∃ name, ObjectName rel name
    · obtain ⟨name, hname⟩ := hname
      obtain ⟨-, -, -, -, -, -, hlen⟩ := id hname
      obtain ⟨htorn, hsign⟩ := h name hname
      rw [hashFromObjectRelpath_of_name hname]
      rcases parseHashHex_spec hlen with ⟨x, hok, hpairs, -⟩ | ⟨-, -, ht⟩ | ⟨e, herr, -, -⟩
      · have hplus : '+' ∉ name := hsign (by simp [hpairs])
        refine ⟨some x, by rw [hok]; rfl, ?_⟩
        rintro _ ⟨⟩
        rw [lower_objectName hname (ascii_of_parseHexPairs hpairs).1,
          lower_of_parseHexPairs hpairs hplus]
        rfl
      · exact absurd ht htorn
      · exact ⟨none, by rw [herr]; rfl, nofun⟩
    · exact ⟨none, hashFromObjectRelpath_of_not hname, nofun⟩

/-- A letter of two bytes at an odd place is cut by a pair, and a pair with a sign is read as a
number that it does not name. -/
theorem object_names_differ :
    hashFromObjectRelpath ("ab/cd/aé".toList ++ List.replicate 57 '0') = .panic ∧
    ∃ hash, hashFromObjectRelpath ("+f/00/".toList ++ List.replicate 60 '0') = .ok (some hash) ∧
      lower ("+f/00/".toList ++ List.replicate 60 '0') ≠ objectRelpath hash :=
  ⟨by decide +kernel, ⟨15 :: List.replicate 31 0, by decide⟩, by decide +kernel, by decide +kernel⟩

end IscsiS3
