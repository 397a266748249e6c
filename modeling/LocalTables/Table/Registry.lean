import LocalTables.Lib.Shared
import LocalTables.Lib.Simulation
import LocalTables.Table.Changes

/-! The snapshot registry of `snapshot.rs`. It follows the snapshots that were published by weak references. Whatever
readers do, it answers as if it had a list of who holds what. -/

namespace LocalTables

open Shared

variable {τ ν : Type}

/-- Tracks which commits readers are still pinned to. -/
structure SnapshotRegistry where
  live : List Ref

namespace SnapshotRegistry

variable (registry : SnapshotRegistry) (heap : Heap (Snapshot τ ν))

def new : SnapshotRegistry := ⟨[]⟩

/-- Track a snapshot that was just shared. -/
def publish (snapshot : Ref) : SnapshotRegistry := ⟨heap.retain registry.live ++ [snapshot]⟩

/-- The oldest commit any reader is still pinned to, and the registry without what is gone. -/
def minActiveTxn : Nat × SnapshotRegistry :=
  let live := heap.retain registry.live
  (((live.filterMap heap.upgrade).map Snapshot.txnId).min?.getD (2 ^ 64 - 1), ⟨live⟩)

/-- How many snapshots are still pinned. -/
def activeCount : Nat × SnapshotRegistry :=
  let live := heap.retain registry.live
  (live.length, ⟨live⟩)

end SnapshotRegistry

/-- What is shared between a table and its readers: the snapshots there are, the registry, the current snapshot, one that
is being published, and those readers hold. -/
structure Shelf (τ ν : Type) where
  heap : Heap (Snapshot τ ν)
  registry : SnapshotRegistry
  current : Ref
  publishing : Option Ref
  readers : List Ref

/-- What may be done with snapshots, and what is answered. -/
inductive Shelf.Label (τ ν : Type) where
  /-- A snapshot is built and registered. -/
  | register (s : Snapshot τ ν)
  /-- The registered snapshot becomes the current one. -/
  | store
  /-- A reader takes the current snapshot. -/
  | load
  /-- A reader hands on the snapshot at this place. -/
  | clone (index : Nat)
  /-- A reader drops the snapshot at this place. -/
  | drop (index : Nat)
  /-- The oldest commit was asked for. -/
  | oldest (txn : Nat)

namespace Shelf

variable {w w' : Shelf τ ν}

/-- The handles there are. -/
def handles (w : Shelf τ ν) : List Ref := w.current :: (w.publishing.toList ++ w.readers)

/-- A table that was just opened: its first snapshot is registered and current. -/
def IsOpen (w : Shelf τ ν) : Prop := ∃ s : Snapshot τ ν,
  w = ⟨(Heap.alloc ⟨[]⟩ s).2, SnapshotRegistry.new.publish (Heap.alloc ⟨[]⟩ s).2 (Heap.alloc ⟨[]⟩ s).1,
    (Heap.alloc ⟨[]⟩ s).1, none, []⟩

/-- One step, each under the registry's lock or a single atomic access. -/
inductive Step : Shelf τ ν → Label τ ν → Shelf τ ν → Prop where
  | register (w : Shelf τ ν) (s : Snapshot τ ν) (hidle : w.publishing = none) :
      Step w (.register s) { w with
        heap := (w.heap.alloc s).2
        registry := w.registry.publish (w.heap.alloc s).2 (w.heap.alloc s).1
        publishing := some (w.heap.alloc s).1 }
  | store (w : Shelf τ ν) {ref : Ref} (hready : w.publishing = some ref) :
      Step w .store { w with heap := w.heap.drop w.current, current := ref, publishing := none }
  | load (w : Shelf τ ν) : Step w .load { w with heap := w.heap.clone w.current, readers := w.current :: w.readers }
  | clone (w : Shelf τ ν) {index : Nat} {ref : Ref} (hat : w.readers[index]? = some ref) :
      Step w (.clone index) { w with heap := w.heap.clone ref, readers := ref :: w.readers }
  | drop (w : Shelf τ ν) {index : Nat} {ref : Ref} (hat : w.readers[index]? = some ref) :
      Step w (.drop index) { w with heap := w.heap.drop ref, readers := w.readers.eraseIdx index }
  | oldest (w : Shelf τ ν) : Step w (.oldest (w.registry.minActiveTxn w.heap).1)
      { w with registry := (w.registry.minActiveTxn w.heap).2 }

/-- Every handle is counted, and everything that is held is registered, once. -/
structure Registered (w : Shelf τ ν) : Prop where
  counts : w.heap.Counts w.handles
  nodup : w.registry.live.Nodup
  all : ∀ ref ∈ w.handles, ref ∈ w.registry.live
  past : ∀ ref ∈ w.registry.live, ref < w.heap.cells.length

end Shelf

/-- A table and its readers as the writer thinks of them, with the snapshot that is registered and not yet current. -/
inductive Table.Turn {M : Media τ ν} :
    Table M × Option (Snapshot τ ν) → Shelf.Label τ ν → Table M × Option (Snapshot τ ν) → Prop where
  | register (t : Table M) (s : Snapshot τ ν) : Turn (t, none) (.register s) (t, some s)
  | store (t : Table M) (s : Snapshot τ ν) : Turn (t, some s) .store ({ t with current := s }, none)
  | load (t : Table M) (p : Option (Snapshot τ ν)) : Turn (t, p) .load (t.pin, p)
  | clone (t : Table M) (p : Option (Snapshot τ ν)) {index : Nat} {s : Snapshot τ ν} (hat : t.pins[index]? = some s) :
      Turn (t, p) (.clone index) ({ t with pins := s :: t.pins }, p)
  | drop (t : Table M) (p : Option (Snapshot τ ν)) {index : Nat} (hat : index < t.pins.length) :
      Turn (t, p) (.drop index) (t.unpin index, p)
  | oldest (t : Table M) (p : Option (Snapshot τ ν)) :
      Turn (t, p) (.oldest ((p.toList.map Snapshot.txnId).foldl min t.minActiveTxn)) (t, p)

namespace Shelf

variable {M : Media τ ν} {w w' : Shelf τ ν} {t : Table M} {p : Option (Snapshot τ ν)}

/-- What is shared is what the table has. -/
structure Shows (w : Shelf τ ν) (t : Table M) (p : Option (Snapshot τ ν)) : Prop where
  registered : w.Registered
  current : w.heap.value w.current = some t.current
  publishing : w.publishing.map w.heap.value = p.map some
  readers : w.readers.map w.heap.value = t.pins.map some

namespace Registered

theorem retained (h : w.Registered) : (w.heap.retain w.registry.live).Perm w.handles.dedup :=
  h.counts.retain_perm h.nodup h.all

theorem prune (h : w.Registered) : { w with registry := ⟨w.heap.retain w.registry.live⟩ : Shelf τ ν }.Registered where
  counts := h.counts
  nodup := h.nodup.filter _
  all ref hmem := h.counts.mem_retain.mpr ⟨h.all ref hmem, hmem⟩
  past ref hmem := h.past ref (h.counts.mem_retain.mp hmem).1

end Registered

theorem min?_of_mem_iff {as bs : List Nat} (h : ∀ n, n ∈ as ↔ n ∈ bs) : as.min? = bs.min? := by
  cases has : as.min? with
  | none =>
      obtain rfl := List.min?_eq_none_iff.mp has
      have hnone : bs = [] := List.eq_nil_iff_forall_not_mem.mpr fun n hn => by simpa using (h n).mpr hn
      rw [hnone]
      rfl
  | some n =>
      obtain ⟨hmem, hleast⟩ := List.min?_eq_some_iff.mp has
      exact (List.min?_eq_some_iff.mpr ⟨(h n).mp hmem, fun m hm => hleast m ((h m).mpr hm)⟩).symm

namespace Shows

theorem handles (h : w.Shows t p) : w.handles.map w.heap.value = (t.current :: (p.toList ++ t.pins)).map some := by
  have hpublishing : w.publishing.toList.map w.heap.value = p.toList.map some := by
    have hlists := congrArg Option.toList h.publishing
    rwa [Option.toList_map, Option.toList_map] at hlists
  rw [Shelf.handles, List.map_cons, List.map_append, h.current, hpublishing, h.readers, List.map_cons, List.map_append]

theorem mem_upgraded (h : w.Shows t p) {s : Snapshot τ ν} :
    s ∈ (w.heap.retain w.registry.live).filterMap w.heap.upgrade ↔ s ∈ t.current :: (p.toList ++ t.pins) := by
  have hcounts := h.registered.counts
  calc s ∈ (w.heap.retain w.registry.live).filterMap w.heap.upgrade
      ↔ ∃ ref ∈ w.heap.retain w.registry.live, w.heap.upgrade ref = some s := List.mem_filterMap
    _ ↔ ∃ ref ∈ w.handles, w.heap.value ref = some s := by
        constructor
        · rintro ⟨ref, hmem, hvalue⟩
          have hheld := (hcounts.mem_retain.mp hmem).2
          exact ⟨ref, hheld, hcounts.upgrade hheld ▸ hvalue⟩
        · rintro ⟨ref, hheld, hvalue⟩
          exact ⟨ref, hcounts.mem_retain.mpr ⟨h.registered.all ref hheld, hheld⟩, (hcounts.upgrade hheld).trans hvalue⟩
    _ ↔ some s ∈ w.handles.map w.heap.value := List.mem_map.symm
    _ ↔ s ∈ t.current :: (p.toList ++ t.pins) := by
        rw [h.handles]
        simp

theorem minActiveTxn (h : w.Shows t p) :
    (w.registry.minActiveTxn w.heap).1 = (p.toList.map Snapshot.txnId).foldl min t.minActiveTxn := by
  have hleast : (((w.heap.retain w.registry.live).filterMap w.heap.upgrade).map Snapshot.txnId).min? =
      some ((p.toList.map Snapshot.txnId).foldl min t.minActiveTxn) := by
    calc (((w.heap.retain w.registry.live).filterMap w.heap.upgrade).map Snapshot.txnId).min?
        = (t.current.txnId :: (t.pins.map Snapshot.txnId ++ p.toList.map Snapshot.txnId)).min? := by
          apply min?_of_mem_iff
          intro n
          rw [List.mem_map]
          simp only [h.mem_upgraded]
          simp only [List.mem_cons, List.mem_append, List.mem_map]
          constructor
          · rintro ⟨s, rfl | hpublishing | hpinned, rfl⟩
            · exact .inl rfl
            · exact .inr (.inr ⟨s, hpublishing, rfl⟩)
            · exact .inr (.inl ⟨s, hpinned, rfl⟩)
          · rintro (rfl | ⟨s, hpinned, rfl⟩ | ⟨s, hpublishing, rfl⟩)
            · exact ⟨_, .inl rfl, rfl⟩
            · exact ⟨s, .inr (.inr hpinned), rfl⟩
            · exact ⟨s, .inr (.inl hpublishing), rfl⟩
      _ = some ((t.pins.map Snapshot.txnId ++ p.toList.map Snapshot.txnId).foldl min t.current.txnId) := List.min?_cons'
      _ = some ((p.toList.map Snapshot.txnId).foldl min t.minActiveTxn) := by
          simp only [List.foldl_append, List.foldl_map, Table.minActiveTxn]
  unfold SnapshotRegistry.minActiveTxn
  dsimp only
  rw [hleast, Option.getD_some]

theorem prune (h : w.Shows t p) : { w with registry := ⟨w.heap.retain w.registry.live⟩ : Shelf τ ν }.Shows t p :=
  ⟨h.registered.prune, h.current, h.publishing, h.readers⟩

theorem keeps (h : w.Shows t p) (heap : Heap (Snapshot τ ν))
    (hvalue : ∀ ref, w.heap.value ref ≠ none → heap.value ref = w.heap.value ref) :
    heap.value w.current = some t.current ∧ w.publishing.map heap.value = p.map some ∧
      w.readers.map heap.value = t.pins.map some := by
  have hheld : ∀ ref ∈ w.handles, heap.value ref = w.heap.value ref := by
    intro ref hmem
    apply hvalue
    obtain ⟨s, hs⟩ := h.registered.counts.value hmem
    rw [hs]
    exact Option.some_ne_none s
  refine ⟨(hheld _ List.mem_cons_self).trans h.current, ?_, ?_⟩
  · rw [← h.publishing]
    apply Option.map_congr
    intro ref href
    apply hheld
    simp [Shelf.handles, href]
  · rw [← h.readers]
    apply List.map_congr_left
    intro ref href
    apply hheld
    simp [Shelf.handles, href]

end Shows

namespace Registered

theorem register (h : w.Registered) (s : Snapshot τ ν) (hidle : w.publishing = none) :
    { w with
      heap := (w.heap.alloc s).2
      registry := w.registry.publish (w.heap.alloc s).2 (w.heap.alloc s).1
      publishing := some (w.heap.alloc s).1 : Shelf τ ν }.Registered := by
  have hcounts := h.counts.alloc s
  have hhandles : w.handles = w.current :: w.readers := by
    rw [handles, hidle]
    rfl
  rw [hhandles] at hcounts
  have hlive : ∀ ref ∈ (w.heap.alloc s).2.retain w.registry.live, ref < w.heap.cells.length := fun ref hmem =>
    h.past ref (hcounts.mem_retain.mp hmem).1
  refine ⟨hcounts.perm (List.Perm.swap _ _ _), ?_, ?_, ?_⟩
  · apply List.Nodup.append (h.nodup.filter _) (List.nodup_singleton _)
    intro ref hold hnew
    obtain rfl := List.mem_singleton.mp hnew
    exact lt_irrefl _ (hlive _ hold)
  · intro ref hmem
    rcases List.mem_cons.mp hmem with rfl | hmem
    · apply List.mem_append_left
      have hcurrent : w.current ∈ w.handles := List.mem_cons_self
      exact hcounts.mem_retain.mpr ⟨h.all _ hcurrent, List.mem_cons_of_mem _ List.mem_cons_self⟩
    · rcases List.mem_cons.mp hmem with rfl | hmem
      · exact List.mem_append_right _ List.mem_cons_self
      · apply List.mem_append_left
        have hreader : ref ∈ w.handles := hhandles ▸ List.mem_cons_of_mem _ hmem
        exact hcounts.mem_retain.mpr ⟨h.all _ hreader, List.mem_cons_of_mem _ (List.mem_cons_of_mem _ hmem)⟩
  · intro ref hmem
    have hgrown : (w.heap.alloc s).2.cells.length = w.heap.cells.length + 1 := by simp [Heap.alloc]
    change ref < (w.heap.alloc s).2.cells.length
    rw [hgrown]
    rcases List.mem_append.mp hmem with hold | hnew
    · exact Nat.lt_succ_of_lt (hlive ref hold)
    · obtain rfl := List.mem_singleton.mp hnew
      exact Nat.lt_succ_self _

theorem of_handles (h : w.Registered) {heap : Heap (Snapshot τ ν)} {current : Ref} {publishing : Option Ref} {readers : List Ref}
    (hlen : heap.cells.length = w.heap.cells.length)
    (hcounts : heap.Counts (current :: (publishing.toList ++ readers)))
    (hsub : current :: (publishing.toList ++ readers) ⊆ w.handles) :
    (Shelf.mk heap w.registry current publishing readers).Registered :=
  ⟨hcounts, h.nodup, fun ref hmem => h.all ref (hsub hmem), fun ref hmem => hlen ▸ h.past ref hmem⟩

theorem clone (h : w.Registered) {ref : Ref} (hheld : ref ∈ w.handles) :
    { w with heap := w.heap.clone ref, readers := ref :: w.readers : Shelf τ ν }.Registered := by
  have hcounts := h.counts.clone hheld
  apply h.of_handles Heap.length_clone
  · exact hcounts.perm ((List.Perm.swap _ _ _).trans (List.Perm.cons _ List.perm_middle.symm))
  · intro other hmem
    rcases List.mem_cons.mp hmem with rfl | hmem
    · exact List.mem_cons_self
    · rcases List.mem_append.mp hmem with hmem | hmem
      · exact List.mem_cons_of_mem _ (List.mem_append_left _ hmem)
      · rcases List.mem_cons.mp hmem with rfl | hmem
        · exact hheld
        · exact List.mem_cons_of_mem _ (List.mem_append_right _ hmem)

end Registered

theorem Shows.step (h : w.Shows t p) {label : Label τ ν} (hstep : Step w label w') :
    ∃ u, Table.Turn (t, p) label u ∧ w'.Shows u.1 u.2 := by
  cases hstep with
  | register s hidle =>
      have hnone : p = none := by
        have hpublishing := h.publishing
        rw [hidle] at hpublishing
        exact (Option.map_eq_none_iff.mp hpublishing.symm)
      subst hnone
      refine ⟨(t, some s), .register t s, ?_⟩
      obtain ⟨hcurrent, -, hreaders⟩ := h.keeps (w.heap.alloc s).2 fun _ hheld => Heap.value_alloc hheld
      exact ⟨h.registered.register s hidle, hcurrent, congrArg some Heap.value_alloc_self, hreaders⟩
  | @store ref hready =>
      obtain ⟨hcurrent, hpublishing, hreaders⟩ := h.keeps (w.heap.drop w.current) fun _ _ => Heap.value_drop
      rw [hready] at hpublishing
      cases p with
      | none => cases hpublishing
      | some s =>
          refine ⟨({ t with current := s }, none), .store t s, ?_, Option.some.inj hpublishing, rfl, hreaders⟩
          have hcounts := h.registered.counts
          have hhandles : w.handles = w.current :: ref :: w.readers := by
            rw [Shelf.handles, hready]
            rfl
          rw [hhandles] at hcounts
          refine h.registered.of_handles Heap.length_drop hcounts.drop_cons ?_
          rw [hhandles]
          exact List.subset_cons_self _ _
  | load =>
      obtain ⟨hcurrent, hpublishing, hreaders⟩ := h.keeps (w.heap.clone w.current) fun _ _ => Heap.value_clone
      exact ⟨(t.pin, p), .load t p, h.registered.clone List.mem_cons_self, hcurrent, hpublishing,
        congrArg₂ List.cons hcurrent hreaders⟩
  | @clone index ref hat =>
      have hreader : ref ∈ w.handles := List.mem_cons_of_mem _ (List.mem_append_right _ (List.mem_of_getElem? hat))
      obtain ⟨hcurrent, hpublishing, hreaders⟩ := h.keeps (w.heap.clone ref) fun _ _ => Heap.value_clone
      have hvalue : ∃ s, t.pins[index]? = some s ∧ (w.heap.clone ref).value ref = some s := by
        have hlists := congrArg (fun l : List (Option (Snapshot τ ν)) => l[index]?) hreaders
        simp only [List.getElem?_map, hat, Option.map_some] at hlists
        obtain ⟨s, hs, heq⟩ := Option.map_eq_some_iff.mp hlists.symm
        exact ⟨s, hs, heq.symm⟩
      obtain ⟨s, hs, hvalue⟩ := hvalue
      exact ⟨({ t with pins := s :: t.pins }, p), .clone t p hs, h.registered.clone hreader, hcurrent, hpublishing,
        congrArg₂ List.cons hvalue hreaders⟩
  | @drop index ref hat =>
      obtain ⟨hcurrent, hpublishing, hreaders⟩ := h.keeps (w.heap.drop ref) fun _ _ => Heap.value_drop
      have hlengths := congrArg List.length hreaders
      rw [List.length_map, List.length_map] at hlengths
      obtain ⟨hlt, hget⟩ := List.getElem?_eq_some_iff.mp hat
      refine ⟨(t.unpin index, p), .drop t p (hlengths ▸ hlt), ?_, hcurrent, hpublishing, ?_⟩
      · have hperm : w.handles.Perm (ref :: w.current :: (w.publishing.toList ++ w.readers.eraseIdx index)) := by
          have hreader := (List.getElem_cons_eraseIdx_perm hlt).symm
          rw [hget] at hreader
          calc List.Perm w.handles (w.current :: (w.publishing.toList ++ ref :: w.readers.eraseIdx index)) :=
                List.Perm.cons _ (hreader.append_left _)
            List.Perm _ (w.current :: ref :: (w.publishing.toList ++ w.readers.eraseIdx index)) :=
                List.Perm.cons _ List.perm_middle
            List.Perm _ (ref :: w.current :: (w.publishing.toList ++ w.readers.eraseIdx index)) := List.Perm.swap _ _ _
        refine h.registered.of_handles Heap.length_drop (h.registered.counts.perm hperm).drop_cons ?_
        intro other hmem
        exact hperm.mem_iff.mpr (List.mem_cons_of_mem _ hmem)
      · rw [← List.eraseIdx_map, hreaders, List.eraseIdx_map]
        rfl
  | oldest =>
      rw [h.minActiveTxn]
      exact ⟨(t, p), .oldest t p, h.prune⟩

/-- What is shared of a table that was just opened. -/
theorem IsOpen.shows (h : w.IsOpen) (t : Table M) :
    ∃ s : Snapshot τ ν, w.Shows { t with current := s, pins := [] } none := by
  obtain ⟨s, rfl⟩ := h
  have hcounts := Heap.Counts.empty.alloc s
  refine ⟨s, ⟨hcounts, List.nodup_singleton _, ?_, ?_⟩, Heap.value_alloc_self, rfl, rfl⟩
  · intro ref hmem
    exact hmem
  · intro ref hmem
    obtain rfl := List.mem_singleton.mp hmem
    exact Nat.zero_lt_one

/-- However readers take, hand on and drop snapshots, and whenever a new one is published, the registry answers as a table
would that has the list of its readers, and once asked it follows what is held and nothing else. -/
theorem registry_answers_for_table (t : Table M) {labels : List (Label τ ν)} (hrun : Simulation.Run IsOpen Step labels w) :
    (∃ u : Table M × Option (Snapshot τ ν),
      Simulation.Run (fun u => (∃ s, u.1 = { t with current := s, pins := [] }) ∧ u.2 = none) Table.Turn labels u ∧
        w.Shows u.1 u.2 ∧ (u.2 = none → (w.registry.minActiveTxn w.heap).1 = u.1.minActiveTxn)) ∧
      (w.registry.minActiveTxn w.heap).2.live.Perm w.handles.dedup ∧
      (w.registry.activeCount w.heap).1 = w.handles.dedup.length := by
  have hinit : ∀ w : Shelf τ ν, w.IsOpen → ∃ u : Table M × Option (Snapshot τ ν),
      ((∃ s, u.1 = { t with current := s, pins := [] }) ∧ u.2 = none) ∧ w.Shows u.1 u.2 := by
    intro w hopen
    obtain ⟨s, hshows⟩ := hopen.shows t
    exact ⟨(_, none), ⟨⟨s, rfl⟩, rfl⟩, hshows⟩
  have hstep : ∀ (w : Shelf τ ν) label w' (u : Table M × Option (Snapshot τ ν)), w.Shows u.1 u.2 → Step w label w' →
      ∃ u', Table.Turn u label u' ∧ w'.Shows u'.1 u'.2 := fun _ _ _ _ hshows hstep => hshows.step hstep
  obtain ⟨u, hturns, hshows⟩ := hrun.simulates hinit hstep
  refine ⟨⟨u, hturns, hshows, ?_⟩, hshows.registered.retained, hshows.registered.retained.length_eq⟩
  intro hidle
  rw [hshows.minActiveTxn, hidle]
  rfl

section Reader

def plainSnapshot (txnId : Nat) : Snapshot Unit Nat := ⟨txnId, plainSchema, [], .empty 0, fun _ => none, []⟩

/-- A reader takes the first snapshot, and a second one is published. -/
def readerLabels : List (Label Unit Nat) := [.load, .register (plainSnapshot 1), .store, .oldest 0]

/-- The reader's snapshot is still the oldest one. -/
theorem reader_holds_oldest : ∃ (t : PlainTable) (w : Shelf Unit Nat),
    ((∃ u : PlainTable × Option (Snapshot Unit Nat),
      Simulation.Run (fun u => (∃ s, u.1 = { t with current := s, pins := [] }) ∧ u.2 = none) Table.Turn readerLabels u ∧
        w.Shows u.1 u.2 ∧ (u.2 = none → (w.registry.minActiveTxn w.heap).1 = u.1.minActiveTxn)) ∧
      (w.registry.minActiveTxn w.heap).2.live.Perm w.handles.dedup ∧
      (w.registry.activeCount w.heap).1 = w.handles.dedup.length) ∧ (w.registry.activeCount w.heap).1 = 2 := by
  have hopens : emptyTable.isOk = true := by decide +kernel
  cases hempty : emptyTable with
  | error e =>
      rw [hempty] at hopens
      cases hopens
  | ok t =>
      have hstart : Simulation.Run IsOpen Step [] (⟨⟨[(plainSnapshot 0, 1)]⟩, ⟨[0]⟩, 0, none, []⟩ : Shelf Unit Nat) :=
        .start ⟨plainSnapshot 0, rfl⟩
      have hrun := (((hstart.step (.load _)).step (.register _ (plainSnapshot 1) rfl)).step (.store _ rfl)).step (.oldest _)
      exact ⟨t, _, registry_answers_for_table t hrun, rfl⟩

end Reader

end Shelf

end LocalTables
