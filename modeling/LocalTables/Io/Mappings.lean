import LocalTables.Layout.Extent
import LocalTables.Lib.Shared
import LocalTables.Lib.Simulation

/-! The mappings of `io/mmap.rs`. A sealed extent is mapped once for all who read it at the same time, and stays mapped as
long as one of them does. Calls run side by side: the cache is locked to look an extent up, and again once it is mapped. -/

namespace LocalTables

open Shared

/-- The weak references of `MmapIo::cache`, each under the extent it maps. -/
abbrev MappingCache := List (Extent × Ref)

namespace MappingCache

variable (cache : MappingCache) (heap : Heap Extent)

/-- The mapping of this extent, if one is in use. -/
def lookup (extent : Extent) : Option Ref :=
  match cache.find? fun entry => entry.1 = extent with
  | some entry => if (heap.upgrade entry.2).isSome then some entry.2 else none
  | none => none

/-- The mappings in use. -/
def retain : MappingCache := cache.filter fun entry => heap.strongCount entry.2 > 0

def insert (extent : Extent) (ref : Ref) : MappingCache := (extent, ref) :: cache.filter fun entry => entry.1 ≠ extent

/-- Number of mappings still alive. -/
def liveMappings : Nat × MappingCache := ((cache.retain heap).length, cache.retain heap)

end MappingCache

/-- A call of `map_extent` that has not returned: it has found nothing, or has made a mapping of its own. -/
inductive MapCall where
  | mapping (extent : Extent)
  | mapped (extent : Extent) (ref : Ref)

/-- The handle a call holds. -/
def MapCall.own : MapCall → Option Ref
  | mapping _ => none
  | mapped _ ref => some ref

/-- The mappings of one file, with the calls under way and the handles that were given out. -/
structure MmapIo where
  heap : Heap Extent
  cache : MappingCache
  len : Nat
  calls : List MapCall
  handles : List Ref

namespace MmapIo

variable {m m' : MmapIo}

/-- A file that was just opened. -/
def IsOpen (m : MmapIo) : Prop := m.heap = ⟨[]⟩ ∧ m.cache = [] ∧ m.calls = [] ∧ m.handles = []

/-- One step of one call, or of one that holds a mapping. The label says what a call returned. -/
inductive Step : MmapIo → Option (Extent × Ref) → MmapIo → Prop where
  | found (m : MmapIo) {extent : Extent} {ref : Ref} (hfound : m.cache.lookup m.heap extent = some ref) :
      Step m (some (extent, ref)) { m with heap := m.heap.clone ref, handles := ref :: m.handles }
  | missed (m : MmapIo) (extent : Extent) (hmissed : m.cache.lookup m.heap extent = none) :
      Step m none { m with calls := .mapping extent :: m.calls }
  | failed (m : MmapIo) (index : Nat) {extent : Extent} (hat : m.calls[index]? = some (.mapping extent)) :
      Step m none { m with calls := m.calls.eraseIdx index }
  | mapped (m : MmapIo) (index : Nat) {extent : Extent} (hat : m.calls[index]? = some (.mapping extent))
      (hwithin : extent.stop ≤ m.len) :
      Step m none { m with
        heap := (m.heap.alloc extent).2
        calls := .mapped extent (m.heap.alloc extent).1 :: m.calls.eraseIdx index }
  | adopted (m : MmapIo) (index : Nat) {extent : Extent} {ref other : Ref}
      (hat : m.calls[index]? = some (.mapped extent ref)) (hfound : m.cache.lookup m.heap extent = some other) :
      Step m (some (extent, other)) { m with
        heap := (m.heap.clone other).drop ref
        calls := m.calls.eraseIdx index
        handles := other :: m.handles }
  | kept (m : MmapIo) (index : Nat) {extent : Extent} {ref : Ref} (hat : m.calls[index]? = some (.mapped extent ref))
      (hmissed : m.cache.lookup m.heap extent = none) :
      Step m (some (extent, ref)) { m with
        cache := (m.cache.retain m.heap).insert extent ref
        calls := m.calls.eraseIdx index
        handles := ref :: m.handles }
  | clone (m : MmapIo) {ref : Ref} (hheld : ref ∈ m.handles) :
      Step m none { m with heap := m.heap.clone ref, handles := ref :: m.handles }
  | drop (m : MmapIo) {ref : Ref} (hheld : ref ∈ m.handles) :
      Step m none { m with heap := m.heap.drop ref, handles := m.handles.erase ref }
  | setLen (m : MmapIo) (len : Nat) : Step m none { m with len := len }
  | count (m : MmapIo) : Step m none { m with cache := (m.cache.liveMappings m.heap).2 }

/-- The handles calls hold. -/
def owned (m : MmapIo) : List Ref := m.calls.filterMap MapCall.own

/-- Every handle is counted; the cache leads from an extent to its mapping, and to every mapping that was given out; the
mappings calls have made and not given out are theirs alone. -/
structure Consistent (m : MmapIo) : Prop where
  counts : m.heap.Counts (m.owned ++ m.handles)
  keys : (m.cache.map Prod.fst).Nodup
  covers : ∀ entry ∈ m.cache, m.heap.value entry.2 = some entry.1
  cached : ∀ ref ∈ m.handles, ref ∈ m.cache.map Prod.snd
  mapped : ∀ extent ref, .mapped extent ref ∈ m.calls → m.heap.value ref = some extent
  alone : m.owned.Nodup
  apart : ∀ ref ∈ m.owned, ref ∉ m.cache.map Prod.snd

/-- The mappings calls hold of their own, one call aside. -/
theorem owned_perm {index : Nat} {call : MapCall} (hat : m.calls[index]? = some call) :
    m.owned.Perm (call.own.toList ++ (m.calls.eraseIdx index).filterMap MapCall.own) := by
  obtain ⟨hlt, hget⟩ := List.getElem?_eq_some_iff.mp hat
  have hperm := (List.getElem_cons_eraseIdx_perm hlt).symm
  rw [hget] at hperm
  have howned := hperm.filterMap MapCall.own
  cases hown : call.own with
  | none =>
      rw [List.filterMap_cons_none hown] at howned
      exact howned
  | some ref =>
      rw [List.filterMap_cons_some hown] at howned
      exact howned

theorem lookup_ok {cache : MappingCache} {heap : Heap Extent} {extent : Extent} {ref : Ref}
    (h : cache.lookup heap extent = some ref) : (extent, ref) ∈ cache ∧ heap.strongCount ref > 0 := by
  unfold MappingCache.lookup at h
  cases hfind : cache.find? fun entry => entry.1 = extent with
  | none => simp [hfind] at h
  | some entry =>
      have hkey : entry.1 = extent := by simpa using List.find?_some hfind
      by_cases halive : heap.strongCount entry.2 > 0
      · have hvalue := heap.value_of_count halive
        obtain ⟨a, ha⟩ := hvalue
        have hentry : entry.2 = ref := by simpa [hfind, Heap.upgrade, halive, ha] using h
        rw [← hkey, ← hentry]
        exact ⟨List.mem_of_find?_eq_some hfind, halive⟩
      · simp [hfind, Heap.upgrade, halive] at h

theorem IsOpen.consistent (h : m.IsOpen) : m.Consistent := by
  obtain ⟨hheap, hcache, hcalls, hhandles⟩ := h
  have howned : m.owned = [] := by
    rw [owned, hcalls]
    rfl
  refine ⟨?_, ?_, ?_, ?_, ?_, ?_, ?_⟩
  · rw [howned, hheap, hhandles]
    exact Heap.Counts.empty
  all_goals simp [howned, hcache, hcalls, hhandles]

namespace Consistent

theorem found (h : m.Consistent) {extent : Extent} {ref : Ref} (hfound : m.cache.lookup m.heap extent = some ref) :
    (extent, ref) ∈ m.cache ∧ ref ∈ m.handles := by
  obtain ⟨hmem, halive⟩ := lookup_ok hfound
  refine ⟨hmem, ?_⟩
  rcases List.mem_append.mp (h.counts.alive_iff.mp halive) with howned | hheld
  · exact absurd (List.mem_map_of_mem (f := Prod.snd) hmem) (h.apart ref howned)
  · exact hheld

theorem missed (h : m.Consistent) {extent : Extent} (hmissed : m.cache.lookup m.heap extent = none) :
    ∀ entry ∈ m.cache.retain m.heap, entry.1 ≠ extent := by
  rintro entry hentry rfl
  obtain ⟨hmem, halive⟩ := List.mem_filter.mp hentry
  have hfind : m.cache.find? (fun other => decide (other.1 = entry.1)) = some entry := by
    cases hfind : m.cache.find? fun other => decide (other.1 = entry.1) with
    | none => simpa using List.find?_eq_none.mp hfind entry hmem
    | some other =>
        have hkey : other.1 = entry.1 := by simpa using List.find?_some hfind
        rw [List.inj_on_of_nodup_map h.keys (List.mem_of_find?_eq_some hfind) hmem hkey]
  have hupgrade : (m.heap.upgrade entry.2).isSome := by
    rw [Heap.upgrade, if_pos (of_decide_eq_true halive), h.covers entry hmem]
    rfl
  simp [MappingCache.lookup, hfind, hupgrade] at hmissed

theorem retained (h : m.Consistent) : { m with cache := m.cache.retain m.heap }.Consistent where
  counts := h.counts
  keys := h.keys.sublist ((List.filter_sublist).map _)
  covers entry hentry := h.covers entry (List.mem_of_mem_filter hentry)
  cached ref hheld := by
    obtain ⟨entry, hentry, rfl⟩ := List.mem_map.mp (h.cached ref hheld)
    apply List.mem_map_of_mem
    refine List.mem_filter.mpr ⟨hentry, decide_eq_true ?_⟩
    exact h.counts.alive_iff.mpr (List.mem_append_right _ hheld)
  mapped := h.mapped
  alone := h.alone
  apart ref howned hmem := by
    obtain ⟨entry, hentry, rfl⟩ := List.mem_map.mp hmem
    exact h.apart _ howned (List.mem_map_of_mem (List.mem_of_mem_filter hentry))

theorem clone (h : m.Consistent) {ref : Ref} (hheld : ref ∈ m.handles) :
    { m with heap := m.heap.clone ref, handles := ref :: m.handles }.Consistent where
  counts := (h.counts.clone (List.mem_append_right _ hheld)).perm List.perm_middle.symm
  keys := h.keys
  covers entry hentry := Heap.value_clone.trans (h.covers entry hentry)
  cached other hother := by
    rcases List.mem_cons.mp hother with rfl | hother
    · exact h.cached _ hheld
    · exact h.cached other hother
  mapped extent other hmapped := Heap.value_clone.trans (h.mapped extent other hmapped)
  alone := h.alone
  apart := h.apart

theorem ended (h : m.Consistent) {index : Nat} {call : MapCall} (hat : m.calls[index]? = some call) (hnone : call.own = none) :
    { m with calls := m.calls.eraseIdx index }.Consistent := by
  have hperm := owned_perm hat
  rw [hnone] at hperm
  refine ⟨h.counts.perm (hperm.append_right _), h.keys, h.covers, h.cached, ?_, hperm.nodup_iff.mp h.alone, ?_⟩
  · intro extent ref hmapped
    exact h.mapped extent ref (List.mem_of_mem_eraseIdx hmapped)
  · intro ref howned
    exact h.apart ref (hperm.mem_iff.mpr howned)

/-- What a call has of its own is given to it, and to nobody else. -/
theorem own_cons (h : m.Consistent) {index : Nat} {extent : Extent} {ref : Ref}
    (hat : m.calls[index]? = some (.mapped extent ref)) :
    m.owned.Perm (ref :: (m.calls.eraseIdx index).filterMap MapCall.own) ∧
      ref ∉ (m.calls.eraseIdx index).filterMap MapCall.own ∧ m.heap.value ref = some extent := by
  have hperm : m.owned.Perm (ref :: (m.calls.eraseIdx index).filterMap MapCall.own) := owned_perm hat
  exact ⟨hperm, (List.nodup_cons.mp (hperm.nodup_iff.mp h.alone)).1, h.mapped extent ref (List.mem_of_getElem? hat)⟩

theorem map (h : m.Consistent) {index : Nat} {extent : Extent} (hat : m.calls[index]? = some (.mapping extent)) :
    { m with
      heap := (m.heap.alloc extent).2
      calls := .mapped extent (m.heap.alloc extent).1 :: m.calls.eraseIdx index }.Consistent := by
  have hperm : m.owned.Perm ((m.calls.eraseIdx index).filterMap MapCall.own) := owned_perm hat
  have hvalue : ∀ {ref : Ref} {e : Extent}, m.heap.value ref = some e → (m.heap.alloc extent).2.value ref = some e := by
    intro ref e hbefore
    rw [Heap.value_alloc (by rw [hbefore]; exact Option.some_ne_none e), hbefore]
  refine ⟨?_, h.keys, fun entry hentry => hvalue (h.covers entry hentry), h.cached, ?_, ?_, ?_⟩
  · exact (h.counts.alloc extent).perm (List.Perm.cons _ (hperm.append_right _))
  · intro e ref hmapped
    rcases List.mem_cons.mp hmapped with hnew | hold
    · obtain ⟨rfl, rfl⟩ := MapCall.mapped.inj hnew
      exact Heap.value_alloc_self
    · exact hvalue (h.mapped e ref (List.mem_of_mem_eraseIdx hold))
  · apply List.nodup_cons.mpr
    refine ⟨?_, hperm.nodup_iff.mp h.alone⟩
    intro hmem
    exact h.counts.fresh (List.mem_append_left _ (hperm.mem_iff.mpr hmem))
  · intro ref howned hmem
    rcases List.mem_cons.mp howned with rfl | howned
    · obtain ⟨entry, hentry, hsame⟩ := List.mem_map.mp hmem
      have hcovers := h.covers entry hentry
      rw [hsame] at hcovers
      simp [Heap.value] at hcovers
    · exact h.apart ref (hperm.mem_iff.mpr howned) hmem

/-- A call that finds another's mapping once it has its own lets go of its own. -/
theorem adopt (h : m.Consistent) {index : Nat} {extent : Extent} {ref other : Ref}
    (hat : m.calls[index]? = some (.mapped extent ref)) (hfound : m.cache.lookup m.heap extent = some other) :
    { m with
      heap := (m.heap.clone other).drop ref
      calls := m.calls.eraseIdx index
      handles := other :: m.handles }.Consistent := by
  obtain ⟨hperm, -, -⟩ := h.own_cons hat
  obtain ⟨hlisted, hheld⟩ := h.found hfound
  have hvalue : ∀ r, ((m.heap.clone other).drop ref).value r = m.heap.value r := fun r =>
    Heap.value_drop.trans Heap.value_clone
  refine ⟨?_, h.keys, fun entry hentry => (hvalue _).trans (h.covers entry hentry), ?_, ?_, ?_, ?_⟩
  · apply Heap.Counts.drop_cons
    apply (h.counts.clone (List.mem_append_right _ hheld)).perm
    calc List.Perm (other :: (m.owned ++ m.handles))
          (m.owned ++ other :: m.handles) := List.perm_middle.symm
      List.Perm _ (ref :: (m.calls.eraseIdx index).filterMap MapCall.own ++ other :: m.handles) := hperm.append_right _
  · intro r hr
    rcases List.mem_cons.mp hr with rfl | hr
    · exact h.cached _ hheld
    · exact h.cached r hr
  · intro e r hmapped
    exact (hvalue r).trans (h.mapped e r (List.mem_of_mem_eraseIdx hmapped))
  · exact (List.nodup_cons.mp (hperm.nodup_iff.mp h.alone)).2
  · intro r howned
    exact h.apart r (hperm.mem_iff.mpr (List.mem_cons_of_mem _ howned))

/-- A call that still finds nothing once it has mapped the extent gives its own mapping to all. -/
theorem keep (h : m.Consistent) {index : Nat} {extent : Extent} {ref : Ref}
    (hat : m.calls[index]? = some (.mapped extent ref)) (hmissed : m.cache.lookup m.heap extent = none) :
    { m with
      cache := (m.cache.retain m.heap).insert extent ref
      calls := m.calls.eraseIdx index
      handles := ref :: m.handles }.Consistent := by
  obtain ⟨hperm, halone, hmapped⟩ := h.own_cons hat
  have hother := h.missed hmissed
  have hinsert : (m.cache.retain m.heap).insert extent ref = (extent, ref) :: m.cache.retain m.heap := by
    unfold MappingCache.insert
    rw [List.filter_eq_self.mpr fun entry hentry => decide_eq_true (hother entry hentry)]
  rw [hinsert]
  refine ⟨?_, ?_, ?_, ?_, ?_, ?_, ?_⟩
  · exact h.counts.perm ((hperm.append_right _).trans List.perm_middle.symm)
  · apply List.nodup_cons.mpr
    refine ⟨?_, h.retained.keys⟩
    intro hmem
    obtain ⟨entry, hentry, hkey⟩ := List.mem_map.mp hmem
    exact hother entry hentry hkey
  · intro entry hentry
    rcases List.mem_cons.mp hentry with rfl | hentry
    · exact hmapped
    · exact h.retained.covers entry hentry
  · intro r hr
    rcases List.mem_cons.mp hr with rfl | hr
    · exact List.mem_cons_self
    · exact List.mem_cons_of_mem _ (h.retained.cached r hr)
  · intro e r hcall
    exact h.mapped e r (List.mem_of_mem_eraseIdx hcall)
  · exact (List.nodup_cons.mp (hperm.nodup_iff.mp h.alone)).2
  · intro r howned hmem
    rcases List.mem_cons.mp hmem with rfl | hmem
    · exact halone howned
    · exact h.retained.apart r (hperm.mem_iff.mpr (List.mem_cons_of_mem _ howned)) hmem

theorem drop (h : m.Consistent) {ref : Ref} (hheld : ref ∈ m.handles) :
    { m with heap := m.heap.drop ref, handles := m.handles.erase ref }.Consistent := by
  have hnot : ref ∉ m.owned := fun howned => h.apart ref howned (h.cached ref hheld)
  refine ⟨?_, h.keys, fun entry hentry => Heap.value_drop.trans (h.covers entry hentry), ?_, ?_, h.alone, h.apart⟩
  · have hcounts := h.counts.drop ref
    rwa [List.erase_append_right _ hnot] at hcounts
  · intro r hr
    exact h.cached r (List.mem_of_mem_erase hr)
  · intro e r hmapped
    exact Heap.value_drop.trans (h.mapped e r hmapped)

theorem step (h : m.Consistent) {label : Option (Extent × Ref)} (hstep : Step m label m') : m'.Consistent := by
  cases hstep with
  | found hfound => exact h.clone (h.found hfound).2
  | missed => exact ⟨h.counts, h.keys, h.covers, h.cached, fun e r hmem => h.mapped e r (by simpa using hmem), h.alone, h.apart⟩
  | failed index hat => exact h.ended hat rfl
  | mapped index hat hwithin => exact h.map hat
  | adopted index hat hfound => exact h.adopt hat hfound
  | kept index hat hmissed => exact h.keep hat hmissed
  | clone hheld => exact h.clone hheld
  | drop hheld => exact h.drop hheld
  | setLen len => exact ⟨h.counts, h.keys, h.covers, h.cached, h.mapped, h.alone, h.apart⟩
  | count => exact h.retained

theorem returned (h : m.Consistent) {extent : Extent} {ref : Ref} (hstep : Step m (some (extent, ref)) m') :
    m.heap.value ref = some extent := by
  cases hstep with
  | found hfound => exact h.covers _ (h.found hfound).1
  | adopted index hat hfound => exact h.covers _ (h.found hfound).1
  | kept index hat hmissed => exact (h.own_cons hat).2.2

end Consistent

theorem Step.value {label : Option (Extent × Ref)} (hstep : Step m label m') {ref : Ref} {extent : Extent}
    (h : m.heap.value ref = some extent) : m'.heap.value ref = some extent := by
  cases hstep with
  | found => exact Heap.value_clone.trans h
  | mapped =>
      rw [← h]
      exact Heap.value_alloc (by rw [h]; exact Option.some_ne_none extent)
  | adopted => exact (Heap.value_drop.trans Heap.value_clone).trans h
  | clone => exact Heap.value_clone.trans h
  | drop => exact Heap.value_drop.trans h
  | missed => exact h
  | failed => exact h
  | kept => exact h
  | setLen => exact h
  | count => exact h

/-- However calls overlap, whoever holds a mapping of an extent holds the same one as all others who do, a call returns one
of the extent it was asked for, which is there as long as it is held, and those that are counted are those that are held. -/
theorem mappings_shared {labels : List (Option (Extent × Ref))} (hrun : Simulation.Run IsOpen Step labels m) :
    (∀ extent ref, some (extent, ref) ∈ labels → m.heap.value ref = some extent) ∧
      (∀ ref ∈ m.handles, ∃ extent, m.heap.upgrade ref = some extent ∧
        ∀ other ∈ m.handles, m.heap.upgrade other = some extent → other = ref) ∧
      (m.cache.liveMappings m.heap).1 = m.handles.dedup.length := by
  have hruns : m.Consistent ∧ ∀ extent ref, some (extent, ref) ∈ labels → m.heap.value ref = some extent := by
    induction hrun with
    | start hopen => exact ⟨hopen.consistent, fun _ _ hmem => by cases hmem⟩
    | step _ hlast ih =>
        obtain ⟨h, hreturned⟩ := ih
        refine ⟨h.step hlast, ?_⟩
        intro extent ref hmem
        rcases List.mem_append.mp hmem with hbefore | hnow
        · exact hlast.value (hreturned extent ref hbefore)
        · rw [← List.mem_singleton.mp hnow] at hlast
          exact hlast.value (h.returned hlast)
  obtain ⟨h, hreturned⟩ := hruns
  have hupgrade : ∀ ref ∈ m.handles, m.heap.upgrade ref = m.heap.value ref := fun ref hheld =>
    h.counts.upgrade (List.mem_append_right _ hheld)
  have hentry : ∀ ref ∈ m.handles, ∃ extent, (extent, ref) ∈ m.cache ∧ m.heap.value ref = some extent := by
    intro ref hheld
    obtain ⟨⟨extent, ref⟩, hmem, rfl⟩ := List.mem_map.mp (h.cached ref hheld)
    exact ⟨extent, hmem, h.covers _ hmem⟩
  refine ⟨hreturned, ?_, ?_⟩
  · intro ref hheld
    obtain ⟨extent, hmem, hvalue⟩ := hentry ref hheld
    refine ⟨extent, (hupgrade ref hheld).trans hvalue, ?_⟩
    intro other hother hsame
    obtain ⟨extent', hmem', hvalue'⟩ := hentry other hother
    rw [hupgrade other hother, hvalue'] at hsame
    obtain rfl := Option.some.inj hsame
    exact congrArg Prod.snd (List.inj_on_of_nodup_map h.keys hmem' hmem rfl)
  · have hrefs : ((m.cache.retain m.heap).map Prod.snd).Nodup := by
      apply List.Nodup.of_map m.heap.value
      rw [List.map_map]
      have hkeys : (m.cache.retain m.heap).map (m.heap.value ∘ Prod.snd) =
          ((m.cache.retain m.heap).map Prod.fst).map some := by
        rw [List.map_map]
        exact List.map_congr_left fun entry hentry => h.retained.covers entry hentry
      rw [hkeys]
      exact h.retained.keys.map (Option.some_injective _)
    have hperm : ((m.cache.retain m.heap).map Prod.snd).Perm m.handles.dedup := by
      apply (List.perm_ext_iff_of_nodup hrefs (List.nodup_dedup _)).mpr
      intro ref
      rw [List.mem_dedup]
      constructor
      · intro hmem
        obtain ⟨entry, hentry, rfl⟩ := List.mem_map.mp hmem
        have halive := of_decide_eq_true (List.mem_filter.mp hentry).2
        rcases List.mem_append.mp (h.counts.alive_iff.mp halive) with howned | hheld
        · exact absurd (List.mem_map_of_mem (List.mem_of_mem_filter hentry)) (h.apart _ howned)
        · exact hheld
      · exact h.retained.cached ref
    calc (m.cache.liveMappings m.heap).1 = ((m.cache.retain m.heap).map Prod.snd).length := (List.length_map _).symm
      _ = m.handles.dedup.length := hperm.length_eq

/-- Two calls that both find nothing, both map the extent, and end up with one mapping. -/
theorem racing_calls_share : ∃ m : MmapIo,
    ((∀ extent ref, some (extent, ref) ∈ [none, none, none, none, some (⟨12288, 64⟩, 0), some (⟨12288, 64⟩, 0)] →
        m.heap.value ref = some extent) ∧
      (∀ ref ∈ m.handles, ∃ extent, m.heap.upgrade ref = some extent ∧
        ∀ other ∈ m.handles, m.heap.upgrade other = some extent → other = ref) ∧
      (m.cache.liveMappings m.heap).1 = m.handles.dedup.length) ∧
    m.handles = [0, 0] ∧ (m.cache.liveMappings m.heap).1 = 1 := by
  have hstart : Simulation.Run IsOpen Step [] (⟨⟨[]⟩, [], 16384, [], []⟩ : MmapIo) := .start ⟨rfl, rfl, rfl, rfl⟩
  have hmissed := (hstart.step (.missed _ ⟨12288, 64⟩ rfl)).step (.missed _ ⟨12288, 64⟩ rfl)
  have hmapped := (hmissed.step (.mapped _ 0 rfl (by decide))).step (.mapped _ 1 rfl (by decide))
  have hrun := (hmapped.step (.kept _ 1 rfl rfl)).step (.adopted _ 0 rfl rfl)
  exact ⟨_, mappings_shared hrun, rfl, rfl⟩

end MmapIo

end LocalTables
