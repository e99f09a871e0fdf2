import IscsiS3.S3.Plain
import IscsiS3.S3.System

/-! No live pointer dangles, whatever the puts and deletes of the calls do and wherever the process
stops. -/

namespace IscsiS3.S3

open Request External

section LivePointers

variable {V : Type} [DecidableEq V] [External]

def anyPayload : Promise where
  payloads := Set.univ
  Fits := fun _ _ _ _ _ => True
  strict := False
  lax := fun _ _ _ _ _ _ => trivial
  grow := fun _ _ => trivial
  named := fun _ _ _ _ => trivial
  patched := fun _ _ _ _ _ => trivial

theorem anyPayload_pays : Pays anyPayload Unreliable := fun _ _ _ _ _ _ _ _ => Set.mem_univ _

/-- A volume before its first use with the copy-on-write layout: unused, or with legacy chunks. -/
structure FirstUse (v : Shape) (b : Bucket) : Prop where
  unused : ∀ k area, area ∈ [Area.liveChunks, .objects, .snapshots] → InArea v.family area k → k ∉ b
  chunks : ∀ k, InArea v.family .legacyChunks k → k ∈ b →
    ∃ i < u64Size, k = legacyChunkKey v.family i ∨ k = legacyFlatChunkKey v.family i

theorem FirstUse.closed {v : Shape} {b : Bucket} (h : FirstUse v b) : Closed anyPayload v b := by
  have absent : ∀ {k body} area, area ∈ [Area.liveChunks, .objects, .snapshots] →
      InArea v.family area k → b.lookup k ≠ some body := fun area ha hk hbody =>
    h.unused _ area ha hk (mem_iff_lookup.mpr ⟨_, hbody⟩)
  refine ⟨0, ?_, ?_, ?_, ?_, ?_, fun hs => hs.elim⟩
  · exact fun k body hk hbody => absurd hbody (absent _ (by decide) hk)
  · exact fun x body hbody => absurd hbody (absent _ (by decide) (inArea_object _ x))
  · intro k body hk hbody
    obtain ⟨i, hi, hkey⟩ := h.chunks k hk (mem_iff_lookup.mpr ⟨body, hbody⟩)
    exact ⟨i, hi, hkey, trivial⟩
  · exact fun id body m hbody => absurd hbody (absent _ (by decide) (inArea_manifest _ id))
  · exact fun id body hbody => absurd hbody (absent _ (by decide) (inArea_chunks _ id))

/-- No live pointer dangles: in every state that the process reaches, between any two requests, a
live pointer can be decoded, the object that it names is in the pool, and has the hash that its key
names. -/
theorem live_pointers_resolve (site : Site V) (json : JsonRoundTrips) {b₀ : Bucket}
    (start : ∀ v, FirstUse (site.shape v) b₀) {st : Session.State Req Reply (Memory V) Bucket}
    (run : Session.Reach (process site fun _ _ => True) Unreliable b₀ st) (v : V) (k : Key)
    (body : Bytes) (hk : InArea (site.shape v).family .liveChunks k)
    (hbody : st.world.lookup k = some body) :
    ∃ h object, decodePointer body = .ok h ∧
      st.world.lookup (objectKey (site.shape v).family h) = some object ∧ blake3 object = h := by
  have keeps : Session.Keeps (process site fun _ _ => True) Unreliable (SiteOk anyPayload site)
      (Left anyPayload site) := process_keeps json anyPayload_pays fun hs => hs.elim
  have holds := keeps.reach (fun u => (start u).closed) run
  obtain ⟨cap, sound⟩ := keeps.left_of_holds holds v
  obtain ⟨i, x, -, rfl, rfl, hx, -⟩ := sound.live k body hk hbody
  obtain ⟨object, hobject⟩ := mem_iff_lookup.mp hx
  exact ⟨x, object, decodePointer_encodePointer x, hobject, (sound.pool x object hobject).1⟩

end LivePointers

section Written

open Plain

def oneVolume : Site Unit where
  shape := fun _ => ⟨"v".toList, 1, 1, .none, by decide⟩
  disjoint := fun h => absurd (Subsingleton.elim _ _) h

def oneConfig : S3StoreConfig := ⟨"v/".toList, 4, 1, 1, .none, .cow, "v".toList⟩

def firstOpened : Memory Unit × Bucket :=
  (Memory.mount (fun _ => none) () oneConfig).run (answer fun _ => []) ∅

def oneMounted : Mounted := ⟨⟨"v".toList, 1, 1, .none, .cow, 4, "v".toList⟩, false⟩

def firstWritten : Memory Unit × Bucket :=
  (firstOpened.1.on () (writeAt 0 [7]) oneMounted).run (answer fun _ => []) firstOpened.2

theorem reach_firstWritten : Session.Reach (process oneVolume fun _ _ => True) Unreliable ∅
    ⟨firstWritten.1, none, firstWritten.2⟩ := by
  have opened : Session.Reach (process oneVolume fun _ _ => True) Unreliable ∅
      ⟨firstOpened.1, none, firstOpened.2⟩ :=
    Session.Reach.call .refl ⟨.openVolume () oneConfig,
      ⟨⟨rfl, rfl, rfl, rfl⟩, by decide⟩, trivial, rfl⟩ (runs_answer _ _ _)
  exact opened.call ⟨.writeAt () 0 [7], trivial, trivial, rfl⟩ (runs_answer _ _ _)

theorem live_pointers_resolve_written : ∃ h object,
    decodePointer (encodePointer (pad [7])) = .ok h ∧
      firstWritten.2.lookup (objectKey "v".toList h) = some object ∧ pad object = h :=
  live_pointers_resolve oneVolume jsonRoundTrips
    (fun _ => ⟨fun _ _ _ _ => AList.notMem_empty _, fun _ _ h => absurd h (AList.notMem_empty _)⟩)
    reach_firstWritten () (liveChunkKey "v".toList 0) _ (inArea_live _ _) (by decide)

end Written

end IscsiS3.S3
