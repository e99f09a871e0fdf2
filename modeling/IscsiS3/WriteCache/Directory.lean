import Mathlib.Data.List.AList
import IscsiS3.Names

/-! The directory of the disk write cache: one file per dirty chunk, named by the chunk's index, a
stamp that names the volume, and temporary files.  `loadDiskCache` reads the directory when a store
is opened. -/

namespace IscsiS3.WriteCache

/-- A directory: file names with the bytes of the files, in the order in which they are listed. -/
abbrev Dir : Type := List (Str × Bytes)

def stampName : Str := ".write-cache.json".toList

@[irreducible] def chunkName (idx : Nat) : Str := hex 16 idx

def tmpName (idx : Nat) : Str := chunkName idx ++ ".tmp".toList

/-- The JSON of a `WriteCacheStamp`: its volume and its chunk size, or the parser's message. -/
structure StampFormat where
  parse : Bytes → Except String (Str × Nat)

def isHexDigit (c : Char) : Bool := (hexValue c).isSome

def checkStamp (F : StampFormat) (path : String) (dir : Dir) (volume : Str) (chunkSize : Nat) :
    Except StoreError Unit :=
  match dir.lookup stampName with
  | none => .ok ()
  | some text => match F.parse text with
    | .error e => .error (.other ("parse " ++ path ++ "/.write-cache.json: " ++ e))
    | .ok (stampVolume, stampSize) =>
      if stampVolume ≠ volume then
        .error (.other ("write-cache " ++ path ++ " belongs to volume " ++
          (String.ofList stampVolume).quote ++ ", not " ++ (String.ofList volume).quote))
      else if stampSize ≠ chunkSize then
        .error (.other ("write-cache " ++ path ++ " chunk_size " ++ toString stampSize ++
          " != volume " ++ toString chunkSize))
      else .ok ()

def loadEntry (path : String) (chunkSize : Nat) (dirty : AList fun _ : Nat => Bytes)
    (entry : Str × Bytes) : Except StoreError (AList fun _ : Nat => Bytes) :=
  if entry.1.head? = some '.' ∨ ".tmp".toList.isSuffixOf entry.1 then .ok dirty
  else if entry.1.length ≠ 16 ∨ !entry.1.all isHexDigit then .ok dirty
  else match fromStrRadix u64Size entry.1 with
    | none => .error (.other ("bad write-cache name " ++ String.ofList entry.1))
    | some idx =>
      if entry.2.length ≠ chunkSize then
        .error (.other ("write-cache " ++ path ++ "/" ++ String.ofList entry.1 ++ " length " ++
          toString entry.2.length ++ " != chunk_size " ++ toString chunkSize))
      else .ok (dirty.insert idx entry.2)

/-- `load_disk_cache`; when there is no stamp the source writes one, which the loop then skips. -/
def loadDiskCache (F : StampFormat) (path : String) (dir : Dir) (volume : Str) (chunkSize : Nat) :
    Except StoreError (AList fun _ : Nat => Bytes) :=
  match checkStamp F path dir volume chunkSize with
  | .error e => .error e
  | .ok () => dir.foldlM (loadEntry path chunkSize) ∅

theorem dot_notMem_chunkName (idx : Nat) : '.' ∉ chunkName idx := by
  unfold chunkName
  exact fun h => absurd (mem_hex h) (by decide)

theorem all_chunkName (idx : Nat) : (chunkName idx).all isHexDigit = true := by
  unfold chunkName
  have hdigits : "0123456789abcdef".toList.all isHexDigit = true := rfl
  exact List.all_eq_true.mpr fun c hc => List.all_eq_true.mp hdigits c (mem_hex hc)

/-- The loop passes over a file whose name starts with a dot or ends in `.tmp`. -/
def Skipped (name : Str) : Prop := name.head? = some '.' ∨ ".tmp".toList.isSuffixOf name

theorem skipped_stampName : Skipped stampName := .inl (by decide)

theorem skipped_tmpName (idx : Nat) : Skipped (tmpName idx) :=
  .inr (List.isSuffixOf_iff_suffix.mpr (List.suffix_append _ _))

theorem not_skipped_chunkName (idx : Nat) : ¬Skipped (chunkName idx) := by
  have hdot := dot_notMem_chunkName idx
  rintro (h | h)
  · exact hdot (List.mem_of_mem_head? (by rw [h]; rfl))
  · exact hdot ((List.isSuffixOf_iff_suffix.mp h).subset (by decide))

theorem chunkName_inj {i j : Nat} (hi : i < u64Size) (hj : j < u64Size)
    (h : chunkName i = chunkName j) : i = j := by
  unfold chunkName at h
  exact hex_injective (by simpa [u64Size] using hi) (by simpa [u64Size] using hj) h

theorem loadEntry_skipped {path : String} {chunkSize : Nat} {dirty : AList fun _ : Nat => Bytes}
    {entry : Str × Bytes} (h : Skipped entry.1) :
    loadEntry path chunkSize dirty entry = .ok dirty := if_pos h

theorem loadEntry_chunkName {path : String} {chunkSize idx : Nat} {bytes : Bytes}
    {dirty : AList fun _ : Nat => Bytes} (hi : idx < u64Size) (hlen : bytes.length = chunkSize) :
    loadEntry path chunkSize dirty (chunkName idx, bytes) = .ok (dirty.insert idx bytes) := by
  have hname : ¬((chunkName idx).length ≠ 16 ∨ !(chunkName idx).all isHexDigit) := by
    rw [all_chunkName]
    simp [chunkName]
  have hskip : ¬((chunkName idx).head? = some '.' ∨ ".tmp".toList.isSuffixOf (chunkName idx)) :=
    not_skipped_chunkName idx
  have hread : fromStrRadix u64Size (chunkName idx) = some idx := by
    unfold chunkName
    exact fromStrRadix_hex (by decide) (by simpa [u64Size] using hi) hi
  simp only [loadEntry, if_neg hskip, if_neg hname, hread, hlen, ne_eq, not_true_eq_false, if_false]

theorem foldlM_loadEntry (path : String) {chunkSize : Nat} (dir : Dir)
    (nodup : (dir.map Prod.fst).Nodup)
    (entries : ∀ e ∈ dir, Skipped e.1 ∨
      ∃ i < u64Size, e.1 = chunkName i ∧ e.2.length = chunkSize)
    (dirty : AList fun _ : Nat => Bytes)
    (whole : ∀ i bytes, dirty.lookup i = some bytes → bytes.length = chunkSize) :
    ∃ found, dir.foldlM (loadEntry path chunkSize) dirty = .ok found ∧
      (∀ i bytes, found.lookup i = some bytes → bytes.length = chunkSize) ∧
      ∀ i < u64Size, found.lookup i = (dir.lookup (chunkName i)).or (dirty.lookup i) := by
  induction dir generalizing dirty with
  | nil => exact ⟨dirty, rfl, whole, fun i _ => by simp⟩
  | cons e rest ih =>
    obtain ⟨name, bytes⟩ := e
    obtain ⟨hnot, nodup'⟩ := List.nodup_cons.mp nodup
    have entries' := fun f hf => entries f (List.mem_cons_of_mem (name, bytes) hf)
    rcases entries (name, bytes) List.mem_cons_self with hskip | ⟨j, hj, rfl, hlen⟩
    · obtain ⟨found, hfold, hwhole, hfound⟩ := ih nodup' entries' dirty whole
      refine ⟨found, by rw [List.foldlM_cons, loadEntry_skipped hskip]; exact hfold, hwhole, ?_⟩
      intro i hi
      have hne : (chunkName i == name) = false := by
        refine beq_eq_false_iff_ne.mpr fun h => ?_
        exact not_skipped_chunkName i (h ▸ hskip)
      rw [hfound i hi, List.lookup_cons, hne]
    · obtain ⟨found, hfold, hwhole, hfound⟩ := ih nodup' entries' (dirty.insert j bytes) (by
        intro i other hi
        by_cases hij : i = j
        · subst hij
          rw [AList.lookup_insert] at hi
          cases hi
          exact hlen
        · rw [AList.lookup_insert_ne hij] at hi
          exact whole i other hi)
      refine ⟨found, by rw [List.foldlM_cons, loadEntry_chunkName hj hlen]; exact hfold, hwhole, ?_⟩
      intro i hi
      rw [hfound i hi, List.lookup_cons]
      by_cases hij : i = j
      · subst hij
        have hnone : rest.lookup (chunkName i) = none := by
          refine List.lookup_eq_none_iff.mpr fun p hp => ?_
          rw [bne_iff_ne]
          intro hp'
          exact hnot (List.mem_map.mpr ⟨p, hp, hp'.symm⟩)
        rw [hnone, beq_self_eq_true, AList.lookup_insert]
        rfl
      · have hne : (chunkName i == chunkName j) = false :=
          beq_eq_false_iff_ne.mpr fun h => hij (chunkName_inj hi hj h)
        rw [hne, AList.lookup_insert_ne hij]

end IscsiS3.WriteCache
