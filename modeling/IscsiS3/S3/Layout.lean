import IscsiS3.S3.Snapshots

/-! The layout of an opened volume: a migration that returns has changed it, and what asks for the
new layout is refused in the old one. -/

namespace IscsiS3.S3

open StoreM

variable {K : S3ChunkStore → Prop}

theorem getBytes_preserves (key : Key) : Preserves K (getBytes key) := by
  refine .bind (.request _) fun r => ?_
  split
  · exact .pure _
  · exact .pure _
  · split
    · exact .pure _
    · exact .throw _
  · exact .throw _

theorem putBytes_preserves (key : Key) (body : Bytes) (ifMatch : Option Str) :
    Preserves K (putBytes key body ifMatch) := by
  refine .bind (.request _) fun r => ?_
  split
  · exact .pure ()
  · exact .throw _

theorem deleteObjectKey_preserves (key : Key) :
    Preserves K (deleteObjectKey key) := by
  refine .bind (.request _) fun r => ?_
  cases r with
  | ok a => exact .pure ()
  | error e => exact .throw _

theorem requireCow_refused {s : S3ChunkStore} (h : s.storage = .legacy) : requireCow.Refused s := by
  refine Refused.get ?_
  rw [h]
  exact Refused.throw _

variable [External]

theorem getLegacyChunk_preserves (index : Nat) : Preserves K (getLegacyChunk index) := by
  refine .get fun s hs => Preserves.bind (getBytes_preserves _) (fun found => ?_) s hs
  split
  · exact .bind (.lift _) fun _ => .pure _
  · refine .bind (getBytes_preserves _) fun found => ?_
    split
    · exact .bind (.lift _) fun _ => .pure _
    · exact .pure _

theorem getChunk_preserves (index : Nat) : Preserves K (getChunk index) := by
  refine .get fun s hs => ?_
  split
  · exact getLegacyChunk_preserves index s hs
  · refine Preserves.bind (getBytes_preserves _) (fun found => ?_) s hs
    split
    · exact .pure _
    · refine .bind (.lift _) fun hash => .bind (.get fun s hs => getBytes_preserves _ s hs)
        fun body => ?_
      split
      · exact .throw _
      · exact .bind (.lift _) fun _ => .pure _

theorem putChunk_preserves (index : Nat) (data : Bytes) (ifMatch : Option Str) :
    Preserves K (putChunk index data ifMatch) := by
  refine .get fun s hs => ?_
  split
  · exact Preserves.throw _ s hs
  split
  · exact Preserves.bind (.lift _) (fun _ => .bind (putBytes_preserves _ _ _) fun _ =>
      .bind (deleteObjectKey_preserves _).attempt fun _ => .pure ()) s hs
  · exact Preserves.bind (.lift _) (fun _ => .bind (putBytes_preserves _ _ _) fun _ =>
      putBytes_preserves _ _ _) s hs

theorem baseChunk_preserves (p : Piece) : Preserves K (baseChunk p) := by
  refine .get fun s hs => ?_
  split
  · exact Preserves.pure _ s hs
  · exact getChunk_preserves _ s hs

theorem writePieceLoop_preserves (p : Piece) (bytes : Bytes) (retries : Nat) :
    Preserves K (writePieceLoop p bytes retries) := by
  induction retries with
  | zero => exact .bind (baseChunk_preserves p) fun _ => putChunk_preserves _ _ _
  | succ retries ih =>
    refine .bind (baseChunk_preserves p) fun _ => .bind
      (putChunk_preserves _ _ _).attempt fun r => ?_
    split
    · exact .pure ()
    · split
      · exact ih
      · exact .throw _

theorem writeAt_preserves (offset : Nat) (data : Bytes) : Preserves K (writeAt offset data) :=
  .get fun s hs => Preserves.bind (.lift _) (fun _ => .each _ fun p =>
    .get fun s hs => writePieceLoop_preserves p _ _ s hs) s hs

omit [External] in
theorem listChunkIndices_preserves (front : Key) : Preserves K (listChunkIndices front) := by
  refine .bind (.bind (.request _) fun r => ?_) fun _ => .pure _
  cases r with
  | ok keys => exact .pure keys
  | error e => exact .throw _

theorem migrateChunk_preserves (idx : Nat) : Preserves K (migrateChunk idx) := by
  have body : Preserves K (legacyBody idx) := by
    refine .get fun s hs => Preserves.bind (getBytes_preserves _) (fun found => ?_) s hs
    split
    · exact .pure _
    · exact .bind (getBytes_preserves _) fun _ => .pure _
  refine .bind body fun found => ?_
  split
  · exact .pure _
  · exact .bind (.get fun s hs => Preserves.bind (putBytes_preserves _ _ _) (fun _ =>
      .bind (putBytes_preserves _ _ _) fun _ => .bind (deleteObjectKey_preserves _).attempt fun _ =>
        .bind (deleteObjectKey_preserves _).attempt fun _ => .pure _) s hs) fun _ => .pure _

theorem migrateToCow_preserves (h : ∀ s, K s → K { s with storage := .cow }) :
    Preserves K migrateToCow := by
  refine .get fun s hs => ?_
  split
  · exact Preserves.bind (deleteObjectKey_preserves _).attempt (fun _ => .throw _) s hs
  · exact Preserves.bind (putBytes_preserves _ _ _) (fun _ =>
      .bind (listChunkIndices_preserves _) fun _ =>
        .bind (.collect _ migrateChunk_preserves) fun _ => .bind (putBytes_preserves _ _ _) fun _ =>
          .bind (.modify h) fun _ => .bind (deleteObjectKey_preserves _).attempt fun _ =>
            .bind (deleteObjectKey_preserves _).attempt fun _ => .pure _) s hs

theorem migrateToCow_commits (s : S3ChunkStore) :
    migrateToCow.Keeps Anything (fun _ _ => True) s () fun _ s' _ => s'.storage = .cow := by
  have first : ∀ {β γ : Type} {m : VolM β} {f : β → VolM γ} {s : S3ChunkStore}
      {R : γ → S3ChunkStore → Unit → Prop},
      (∀ b s', (f b).Keeps Anything (fun _ _ => True) s' () R) →
        (m >>= f).Keeps Anything (fun _ _ => True) s () R := fun {_ _ _ _ s _} rest =>
    Keeps.bind ((Preserves.trivial (fun _ => trivial) s trivial).mono fun b s' _ _ _ => rest b s')
  refine Keeps.bind (Keeps.get trivial ?_)
  split
  · exact first fun _ _ => Keeps.throw trivial
  · refine first fun _ _ => first fun indices _ => first fun migrated _ => first fun _ _ =>
      Keeps.bind (Keeps.modify trivial trivial ?_)
    have drops : Preserves (fun s : S3ChunkStore => s.storage = .cow) (do
        let _ ← (deleteObjectKey (flatMetaKey s.family)).attempt
        let _ ← (deleteObjectKey (migratingKey s.family)).attempt
        pure ⟨migrated.count true, migrated.count true, migrateNote⟩ : VolM MigrateStats) :=
      .bind (deleteObjectKey_preserves _).attempt fun _ =>
        .bind (deleteObjectKey_preserves _).attempt fun _ => .pure _
    exact drops.keeps rfl fun _ _ => trivial

end IscsiS3.S3
