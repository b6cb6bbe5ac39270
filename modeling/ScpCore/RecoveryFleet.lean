import ScpCore.RecoveryTerminal

/-! Many devices over one platform account. Each device has its own local store,
which no other device writes, so a digest completed on one device may still sit
in another's; only the marker in the platform account says that it is done, and
the next completion overwrites that marker. -/

namespace ScpCore.Recovery
open ScpCore.Kel (Digest U64)

/-- The shared platform-account store and every device's local store. -/
structure Fleet (ι : Type) where
  platform : PlatformStore
  locals : ι → LocalStore

namespace Fleet
variable {ι : Type} [DecidableEq ι] (set : StoreSet)

/-- The stores device `i` reaches. -/
def stores (f : Fleet ι) (i : ι) : Stores := ⟨f.platform, .empty, f.locals i⟩

/-- One call on device `i`, with every read reached and every write landing. -/
def call (f : Fleet ι) (x : ι × Call) : Except RecoveryStoreError Report × Fleet ι :=
  let (result, s) := set.call .reached (f.stores x.1) x.2
  (result, ⟨s.platform, Function.update f.locals x.1 s.sdkLocal⟩)

def run (f : Fleet ι) (calls : List (ι × Call)) : Fleet ι :=
  calls.foldl (fun f x => (f.call set x).2) f

/-- No store holds anything yet. -/
def Fresh (f : Fleet ι) : Prop := f.platform.entry = .empty ∧ ∀ i, (f.locals i).entry = .empty

@[simp] theorem run_nil (f : Fleet ι) : f.run set [] = f := rfl

@[simp] theorem run_cons (f : Fleet ι) (x : ι × Call) (calls : List (ι × Call)) :
    f.run set (x :: calls) = ((f.call set x).2).run set calls := rfl

end Fleet

theorem StoreEntry.Same.holds {e e' : StoreEntry} (h : e.Same e') (d : Digest) : e.holds d = e'.holds d := by
  rw [StoreEntry.holds, h.1, StoreEntry.holds]

/-- No local store's marker is ahead of the platform account's. -/
def Ordered {ι : Type} (f : Fleet ι) : Prop :=
  ∀ i x, (f.locals i).entry.marker = some x →
    ∃ y, f.platform.entry.marker = some y ∧ x.sequence.toNat ≤ y.sequence.toNat

theorem mem_view_markers {s : Stores} {x : LastRevealMarker} :
    x ∈ s.view.markers ↔ s.platform.entry.marker = some x ∨ s.sdkLocal.entry.marker = some x := by
  simp only [Snapshot.markers, List.mem_filterMap, mem_entries]
  constructor
  · rintro ⟨e, ⟨m, hm⟩, hx⟩
    obtain ⟨-, rfl⟩ | ⟨-, rfl⟩ := view_member.mp hm
    · exact .inl hx
    · exact .inr hx
  · rintro (hx | hx)
    · exact ⟨_, ⟨_, view_member.mpr (.inl ⟨rfl, rfl⟩)⟩, hx⟩
    · exact ⟨_, ⟨_, view_member.mpr (.inr ⟨rfl, rfl⟩)⟩, hx⟩

/-- The markers a device reads are no further than the platform account's. -/
theorem Ordered.view {ι : Type} {f : Fleet ι} (h : Ordered f) (i : ι) {x : LastRevealMarker}
    (hx : x ∈ (f.stores i).view.markers) :
    ∃ y, f.platform.entry.marker = some y ∧ x.sequence.toNat ≤ y.sequence.toNat := by
  obtain hp | hl := mem_view_markers.mp hx
  · exact ⟨x, hp, le_rfl⟩
  · exact h i x hl

section Devices
variable {ι : Type} [DecidableEq ι] {set : StoreSet} (hset : set.Plain)
include hset

/-- Along `calls`, every call `bad` holds of is refused. -/
def Refuses (set : StoreSet) (bad : Call → Bool) (f : Fleet ι) (calls : List (ι × Call)) : Prop :=
  ∀ n x, calls[n]? = some x → bad x.2 = false ∨
    ∃ e, ((f.run set (calls.take n)).call set x).1 = .error e

omit hset in
theorem Refuses.head {bad : Call → Bool} {f : Fleet ι} {x : ι × Call} {calls : List (ι × Call)}
    (h : Refuses set bad f (x :: calls)) :
    bad x.2 = false ∨ ∃ e, (f.call set x).1 = .error e := h 0 x rfl

omit hset in
theorem Refuses.tail {bad : Call → Bool} {f : Fleet ι} {x : ι × Call} {calls : List (ι × Call)}
    (h : Refuses set bad f (x :: calls)) : Refuses set bad (f.call set x).2 calls := by
  intro n y hy
  exact h (n+1) y hy

end Devices

def sampleNext : List (Bool × Call) :=
  [(true, .compose .fixesCommitment 8 (some ⟨1, 1, 7⟩)), (true, .complete 2 8)]

end ScpCore.Recovery
