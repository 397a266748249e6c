import LocalTables.Io.Uring
import Mathlib.Data.List.Nodup
import Mathlib.Data.List.Perm.Basic

/-! What the reactor of `Io.Uring` keeps from step to step: every read that was asked for is in one place until it is
answered, every read in flight has its entry on the way, and a buffer is written by its own read alone. -/

namespace LocalTables.Uring

theorem remove_perm {id : Nat} {inFlight rest : List (Nat × InFlight)} {op : InFlight}
    (h : remove id inFlight = some (op, rest)) : inFlight.Perm ((id, op) :: rest) := by
  induction inFlight generalizing rest with
  | nil => cases h
  | cons entry inFlight ih =>
      obtain ⟨key, first⟩ := entry
      unfold remove at h
      split at h
      · rename_i hkey
        subst hkey
        cases h
        exact List.Perm.refl _
      · obtain ⟨⟨found, others⟩, hfound, heq⟩ := Option.map_eq_some_iff.mp h
        cases heq
        exact ((ih hfound).cons _).trans (List.Perm.swap _ _ _)

theorem remove_none {id : Nat} {inFlight : List (Nat × InFlight)} (h : remove id inFlight = none) :
    ∀ entry ∈ inFlight, entry.1 ≠ id := by
  induction inFlight with
  | nil => simp
  | cons entry inFlight ih =>
      obtain ⟨key, first⟩ := entry
      unfold remove at h
      split at h
      · cases h
      · rename_i hkey
        intro entry hentry
        rcases List.mem_cons.mp hentry with rfl | hentry
        · exact hkey
        · exact ih (Option.map_eq_none_iff.mp h) entry hentry

theorem insert_fresh {id : Nat} {op : InFlight} {inFlight : List (Nat × InFlight)} (h : ∀ entry ∈ inFlight, entry.1 ≠ id) :
    insert id op inFlight = (id, op) :: inFlight := by
  unfold insert
  cases hremove : remove id inFlight with
  | none => rfl
  | some found =>
      obtain ⟨other, rest⟩ := found
      exact absurd rfl (h (id, other) ((remove_perm hremove).mem_iff.mpr List.mem_cons_self))

/-- What the reactor is about to submit again. -/
def Control.resubmit : Control → List InFlight
  | .reap _ resubmit => resubmit
  | .again resubmit => resubmit
  | .top => []
  | .scatter _ => []
  | .wait => []
  | .woken => []
  | .returned => []

namespace State

/-- The entries that have not been completed. -/
def entries (s : State) : List Sqe := s.pushing.toList ++ s.unfinished

/-- The ids the ring knows. -/
def ids (s : State) : List Nat :=
  s.pushing.toList.map Sqe.userData ++ (s.submission.map Sqe.userData ++
    (s.started.map (fun work => work.entry.userData) ++ s.completion.map Cqe.userData))

/-- The numbers of the reads, each where it is now. -/
def asked (s : State) : List Nat := s.pending.map ReadOp.reply ++ s.answers.map Prod.fst

end State

/-- What one step does, with the branch it takes. -/
inductive Move (file : List UInt8) (s : State) : Event → State → Prop where
  | call {extents : List Extent} {ptrs : List Nat} (hopen : s.closed = false) (hptrs : ptrs.length = extents.length)
      (hapart : ((readOps s.reads.length extents ptrs).map ReadOp.buf ++ s.owned).Pairwise IoBuf.Apart) :
      Move file s (.call extents ptrs) { s with
        requests := if extents.isEmpty then s.requests else s.requests ++ [readOps s.reads.length extents ptrs]
        reads := s.reads ++ extents
        calls := s.calls ++ [extents.zipIdx s.reads.length] }
  | release (reply : Nat) : Move file s (.release reply) { s with held := s.held.filter fun buf => buf.1 != reply }
  | close : Move file s .close { s with closed := true }
  | receive {ops : List ReadOp} {requests : List (List ReadOp)} (hcontrol : s.control = .top)
      (hrequests : s.requests = ops :: requests) : Move file s .receive { s with requests := requests, control := .scatter ops }
  | stop (hcontrol : s.control = .top) : Move file s .receive { s with control := .returned }
  | busy (hcontrol : s.control = .top) : Move file s .receive { s with control := .wait }
  | submit {op : ReadOp} {ops : List ReadOp} (hpushing : s.pushing = none) (hcontrol : s.control = .scatter (op :: ops)) :
      Move file s .submit ({ s with nextId := s.nextId + 1, control := .scatter ops }.submit s.nextId op)
  | submitted {control : Control} (hcontrol : s.control = .scatter []) (hreads : control.reads = [])
      (hresubmit : control.resubmit = []) : Move file s .submit { s with control := control }
  | push {entry : Sqe} (hpushing : s.pushing = some entry) :
      Move file s .push { s with pushing := none, submission := s.submission ++ [entry] }
  | flush {entry : Sqe} (hpushing : s.pushing = some entry) (count : Nat) : Move file s (.flush count) (s.take count)
  | flushFails {entry : Sqe} {op : InFlight} {rest : List (Nat × InFlight)} (hpushing : s.pushing = some entry)
      (hop : remove entry.userData s.inFlight = some (op, rest)) (code : Int) :
      Move file s (.flushFails code) ({ s with pushing := none, inFlight := rest }.send op.reply (.error (.rawIo code)))
  | forget {entry : Sqe} (hpushing : s.pushing = some entry) (hop : remove entry.userData s.inFlight = none) (code : Int) :
      Move file s (.flushFails code) { s with pushing := none }
  | submitAndWait (hcontrol : s.control = .wait) (count : Nat) :
      Move file s (.submitAndWait count) { s.take count with control := .woken }
  | submitAndWaitFails (hcontrol : s.control = .wait) (code : Int) :
      Move file s (.submitAndWaitFails code) { s.failAll code with control := .top }
  | collect (hcontrol : s.control = .woken) : Move file s .collect { s with control := .reap s.completion.length [] }
  | reaped {resubmit : List InFlight} (hcontrol : s.control = .reap 0 resubmit) :
      Move file s .reap { s with control := .again resubmit }
  | reap {count : Nat} {resubmit : List InFlight} {done : Cqe} {rest : List Cqe} (hcontrol : s.control = .reap (count + 1) resubmit)
      (hcompletion : s.completion = done :: rest) : Move file s .reap ({ s with completion := rest }.reapOne done count resubmit)
  | resubmit {op : InFlight} {ops : List InFlight} (hpushing : s.pushing = none) (hcontrol : s.control = .again (op :: ops)) :
      Move file s .resubmit ({ s with nextId := s.nextId + 1, control := .again ops }.submitEntry s.nextId op)
  | resubmitted (hcontrol : s.control = .again []) : Move file s .resubmit { s with control := .top }
  | copy {index count : Nat} {work : Started} (hwork : s.started[index]? = some work)
      (hcount : work.copied + count ≤ work.entry.len) :
      Move file s (.copy index count) { s with
        memory := Memory.store s.memory (work.entry.ptr + work.copied) (Memory.slice file (work.entry.offset + work.copied) count)
        started := s.started.set index { work with
          copied := work.copied + (Memory.slice file (work.entry.offset + work.copied) count).length } }
  | finish {index : Nat} {work : Started} {result : Int} (hwork : s.started[index]? = some work)
      (hresult : result.toNat ≤ work.copied) :
      Move file s (.finish index result) { s with
        started := s.started.eraseIdx index
        completion := s.completion ++ [⟨work.entry.userData, result⟩] }

theorem submitPartial_eq (s : State) (id : Nat) (op : InFlight) :
    s.submitPartial id op (op.offset + op.filled) op.filled = s.submitEntry id op := by
  unfold State.submitPartial
  rw [Nat.add_sub_cancel]

section Cases

variable {file : List UInt8} {s u : State}

theorem receive_cases (h : step file s .receive = some u) : Move file s .receive u := by
  simp only [step] at h
  split at h
  · next hcontrol hrequests =>
      cases h
      exact .receive hcontrol hrequests
  · next hcontrol _ =>
      split at h
      · split at h
        · cases h
          exact .stop hcontrol
        · cases h
      · cases h
        exact .busy hcontrol
  · cases h

theorem submit_cases (h : step file s .submit = some u) : Move file s .submit u := by
  simp only [step] at h
  split at h
  · next hpushing hcontrol =>
      cases h
      exact .submit hpushing hcontrol
  · next hcontrol =>
      cases h
      refine .submitted hcontrol ?_ ?_ <;> split <;> rfl
  · cases h

theorem push_cases (h : step file s .push = some u) : Move file s .push u := by
  simp only [step] at h
  split at h
  · next entry hpushing =>
      split at h
      · cases h
        exact .push hpushing
      · cases h
  · cases h

theorem flushFails_cases {code : Int} (h : step file s (.flushFails code) = some u) : Move file s (.flushFails code) u := by
  simp only [step] at h
  split at h
  · next entry hpushing =>
      split at h
      · split at h
        · next op rest hop =>
            cases h
            exact .flushFails hpushing hop code
        · next hop =>
            cases h
            exact .forget hpushing hop code
      · cases h
  · cases h

theorem reap_cases (h : step file s .reap = some u) : Move file s .reap u := by
  simp only [step] at h
  split at h
  · next hcontrol =>
      cases h
      exact .reaped hcontrol
  · next hcontrol hcompletion =>
      cases h
      exact .reap hcontrol hcompletion
  · cases h

theorem resubmit_cases (h : step file s .resubmit = some u) : Move file s .resubmit u := by
  simp only [step, submitPartial_eq] at h
  split at h
  · next hpushing hcontrol =>
      cases h
      exact .resubmit hpushing hcontrol
  · next hcontrol =>
      cases h
      exact .resubmitted hcontrol
  · cases h

theorem copy_cases {index count : Nat} (h : step file s (.copy index count) = some u) : Move file s (.copy index count) u := by
  simp only [step] at h
  split at h
  · next work hwork =>
      obtain ⟨hcount, h⟩ := Option.ite_none_right_eq_some.mp h
      cases h
      exact .copy hwork hcount
  · cases h

theorem finish_cases {index : Nat} {result : Int} (h : step file s (.finish index result) = some u) :
    Move file s (.finish index result) u := by
  simp only [step] at h
  split at h
  · next work hwork =>
      obtain ⟨hresult, h⟩ := Option.ite_none_right_eq_some.mp h
      cases h
      exact .finish hwork hresult
  · cases h

/-- A step takes one of the branches there are. -/
theorem step_cases {event : Event} (h : step file s event = some u) : Move file s event u := by
  cases event with
  | call extents ptrs =>
      obtain ⟨hguard, h⟩ := Option.ite_none_right_eq_some.mp h
      cases h
      exact .call hguard.1 hguard.2.1 hguard.2.2
  | release reply =>
      cases h
      exact .release reply
  | close =>
      cases h
      exact .close
  | receive => exact receive_cases h
  | submit => exact submit_cases h
  | push => exact push_cases h
  | flush count =>
      obtain ⟨hguard, h⟩ := Option.ite_none_right_eq_some.mp h
      cases h
      obtain ⟨entry, hpushing⟩ := Option.isSome_iff_exists.mp hguard.1
      exact .flush hpushing count
  | flushFails code => exact flushFails_cases h
  | submitAndWait count =>
      simp only [step] at h
      split at h
      · next hcontrol =>
          cases h
          exact .submitAndWait hcontrol count
      · cases h
  | submitAndWaitFails code =>
      simp only [step] at h
      split at h
      · next hcontrol =>
          cases h
          exact .submitAndWaitFails hcontrol code
      · cases h
  | collect =>
      simp only [step] at h
      split at h
      · next hcontrol =>
          cases h
          exact .collect hcontrol
      · cases h
  | reap => exact reap_cases h
  | resubmit => exact resubmit_cases h
  | copy index count => exact copy_cases h
  | finish index result => exact finish_cases h

end Cases

/-- The ring and the map of the reads in flight belong together. -/
structure Queued (s : State) : Prop where
  ids : s.ids.Nodup
  fresh : ∀ id ∈ s.ids, id < s.nextId
  keys : (s.inFlight.map Prod.fst).Nodup
  known : ∀ entry ∈ s.inFlight, entry.1 ∈ s.ids
  /-- An entry reads what is missing of its read, into its buffer. -/
  rest : ∀ entry ∈ s.entries, ∀ op, (entry.userData, op) ∈ s.inFlight → entry = op.entry entry.userData
  short : ∀ entry ∈ s.inFlight, entry.2.filled < entry.2.buf.len
  resubmit : ∀ op ∈ s.control.resubmit, op.filled < op.buf.len
  copied : ∀ work ∈ s.started, work.copied ≤ work.entry.len
  reached : ∀ done ∈ s.completion, ∀ op, (done.userData, op) ∈ s.inFlight → done.result.toNat ≤ op.buf.len - op.filled

namespace Queued

variable {s : State}

theorem entry_mem_ids {entry : Sqe} (h : entry ∈ s.entries) : entry.userData ∈ s.ids := by
  simp only [State.entries, State.unfinished, State.ids, List.mem_append, List.mem_map] at h ⊢
  rcases h with h | h | ⟨work, hwork, rfl⟩
  · exact Or.inl ⟨entry, h, rfl⟩
  · exact Or.inr (Or.inl ⟨entry, h, rfl⟩)
  · exact Or.inr (Or.inr (Or.inl ⟨work, hwork, rfl⟩))

theorem keys_lt (h : Queued s) : ∀ entry ∈ s.inFlight, entry.1 < s.nextId := fun entry hentry =>
  h.fresh _ (h.known entry hentry)

/-- Where the reactor is does not matter to the ring. -/
theorem of_control (h : Queued s) (control : Control) (requests : List (List ReadOp))
    (hresubmit : ∀ op ∈ control.resubmit, op.filled < op.buf.len) :
    Queued { s with control := control, requests := requests } :=
  ⟨h.ids, h.fresh, h.keys, h.known, h.rest, h.short, hresubmit, h.copied, h.reached⟩

theorem send (h : Queued s) (reply : Nat) (answer : Except ReadError IoBuf) : Queued (s.send reply answer) := by
  cases answer <;> exact ⟨h.ids, h.fresh, h.keys, h.known, h.rest, h.short, h.resubmit, h.copied, h.reached⟩

theorem of_sublist (h : Queued s) {rest : List (Nat × InFlight)} (hsub : rest.Subperm s.inFlight) :
    Queued { s with inFlight := rest } where
  ids := h.ids
  fresh := h.fresh
  keys := by
    obtain ⟨part, hperm, hpart⟩ := hsub
    exact ((hperm.map Prod.fst).nodup_iff).mp (h.keys.sublist (hpart.map Prod.fst))
  known entry hentry := h.known entry (hsub.subset hentry)
  rest entry hentry op hop := h.rest entry hentry op (hsub.subset hop)
  short entry hentry := h.short entry (hsub.subset hentry)
  resubmit := h.resubmit
  copied := h.copied
  reached done hdone op hop := h.reached done hdone op (hsub.subset hop)

theorem submitEntry (h : Queued s) (hpushing : s.pushing = none) {op : InFlight} :
    Queued ({ s with nextId := s.nextId + 1 }.submitEntry s.nextId op) := by
  have hlater : Queued { s with nextId := s.nextId + 1 } :=
    ⟨h.ids, fun id hid => Nat.lt_succ_of_lt (h.fresh id hid), h.keys, h.known, h.rest, h.short, h.resubmit, h.copied, h.reached⟩
  unfold State.submitEntry
  split
  · exact hlater.send _ _
  · rename_i hlen
    have hinsert : insert s.nextId op s.inFlight = (s.nextId, op) :: s.inFlight :=
      insert_fresh fun entry hentry => (h.keys_lt entry hentry).ne
    have hnew : ∀ id ∈ s.ids, id ≠ s.nextId := fun id hid => (h.fresh id hid).ne
    have hids : State.ids { s with
        nextId := s.nextId + 1
        inFlight := insert s.nextId op s.inFlight
        pushing := some (op.entry s.nextId) } = s.nextId :: s.ids := by
      simp only [State.ids, hpushing, Option.toList_some, Option.toList_none, List.map_cons, List.map_nil, List.nil_append,
        List.cons_append]
      rfl
    have hold : ∀ {id : Nat} {other : InFlight}, id ∈ s.ids → (id, other) ∈ (s.nextId, op) :: s.inFlight →
        (id, other) ∈ s.inFlight := by
      intro id other hid hmem
      rcases List.mem_cons.mp hmem with heq | hmem
      · exact absurd (congrArg Prod.fst heq) (hnew id hid)
      · exact hmem
    constructor
    · rw [hids]
      exact List.nodup_cons.mpr ⟨fun hid => hnew _ hid rfl, h.ids⟩
    · rw [hids]
      intro id hid
      rcases List.mem_cons.mp hid with rfl | hid
      · exact Nat.lt_succ_self _
      · exact Nat.lt_succ_of_lt (h.fresh id hid)
    · simp only [hinsert, List.map_cons]
      refine List.nodup_cons.mpr ⟨fun hid => ?_, h.keys⟩
      obtain ⟨entry, hentry, heq⟩ := List.mem_map.mp hid
      exact (h.keys_lt entry hentry).ne heq
    · rw [hids]
      simp only [hinsert]
      intro entry hentry
      rcases List.mem_cons.mp hentry with rfl | hentry
      · exact List.mem_cons_self
      · exact List.mem_cons_of_mem _ (h.known entry hentry)
    · simp only [hinsert]
      intro entry hentry other hother
      have hentries : entry = op.entry s.nextId ∨ entry ∈ s.entries := by
        simp only [State.entries, hpushing, Option.toList_some, Option.toList_none, List.nil_append] at hentry ⊢
        exact List.mem_cons.mp hentry
      rcases hentries with rfl | hentry
      · rcases List.mem_cons.mp hother with heq | hother
        · cases heq
          rfl
        · exact absurd rfl (h.keys_lt _ hother).ne
      · exact h.rest entry hentry other (hold (entry_mem_ids hentry) hother)
    · simp only [hinsert]
      intro entry hentry
      rcases List.mem_cons.mp hentry with rfl | hentry
      · show op.filled < op.buf.len
        omega
      · exact h.short entry hentry
    · exact h.resubmit
    · exact h.copied
    · simp only [hinsert]
      intro done hdone other hother
      refine h.reached done hdone other (hold ?_ hother)
      simp only [State.ids, List.mem_append, List.mem_map]
      exact Or.inr (Or.inr (Or.inr ⟨done, hdone, rfl⟩))

theorem push (h : Queued s) {entry : Sqe} (hpushing : s.pushing = some entry) :
    Queued { s with pushing := none, submission := s.submission ++ [entry] } := by
  have hids : (State.ids { s with pushing := none, submission := s.submission ++ [entry] }).Perm s.ids := by
    refine List.perm_iff_count.mpr fun id => ?_
    simp only [State.ids, hpushing, Option.toList_some, Option.toList_none, List.map_cons, List.map_nil, List.map_append,
      List.count_append, List.count_nil]
    omega
  have hentries : ∀ other, other ∈ State.entries { s with pushing := none, submission := s.submission ++ [entry] } →
      other ∈ s.entries := by
    intro other hother
    simp only [State.entries, State.unfinished, hpushing, Option.toList_some, Option.toList_none, List.mem_append,
      List.mem_singleton, List.not_mem_nil, false_or] at hother ⊢
    tauto
  exact ⟨hids.nodup_iff.mpr h.ids, fun id hid => h.fresh id (hids.mem_iff.mp hid), h.keys,
    fun other hother => hids.mem_iff.mpr (h.known other hother), fun other hother => h.rest other (hentries other hother),
    h.short, h.resubmit, h.copied, h.reached⟩

theorem unfinished_take (s : State) (count : Nat) : (s.take count).unfinished.Perm s.unfinished := by
  have hentries : (s.take count).unfinished =
      s.submission.drop count ++ (s.started.map Started.entry ++ s.submission.take count) := by
    simp [State.unfinished, State.take, Function.comp_def]
  rw [hentries, ← List.append_assoc]
  refine List.perm_append_comm.trans ?_
  rw [← List.append_assoc, List.take_append_drop]
  exact List.Perm.refl _

theorem ids_take (s : State) (count : Nat) : (s.take count).ids.Perm s.ids := by
  have hids : ∀ t : State, t.ids = t.pushing.toList.map Sqe.userData ++ (t.unfinished.map Sqe.userData ++
      t.completion.map Cqe.userData) := by
    intro t
    simp [State.ids, State.unfinished, Function.comp_def]
  rw [hids, hids]
  exact (((unfinished_take s count).map _).append_right _).append_left _

theorem take (h : Queued s) (count : Nat) : Queued (s.take count) := by
  have hids := ids_take s count
  constructor
  · exact hids.nodup_iff.mpr h.ids
  · exact fun id hid => h.fresh id (hids.mem_iff.mp hid)
  · exact h.keys
  · exact fun entry hentry => hids.mem_iff.mpr (h.known entry hentry)
  · intro entry hentry
    refine h.rest entry (List.mem_append.mpr ((List.mem_append.mp hentry).imp_right ?_))
    exact (unfinished_take s count).mem_iff.mp
  · exact h.short
  · exact h.resubmit
  · intro work hwork
    rcases List.mem_append.mp hwork with hwork | hwork
    · exact h.copied work hwork
    · obtain ⟨entry, _, rfl⟩ := List.mem_map.mp hwork
      exact Nat.zero_le _
  · exact h.reached

/-- The entry that found no place in the queue is forgotten with its read. -/
theorem flushFails (h : Queued s) {entry : Sqe} (hpushing : s.pushing = some entry) {rest : List (Nat × InFlight)}
    (hsub : rest.Subperm s.inFlight) (hgone : ∀ other ∈ rest, other.1 ≠ entry.userData) :
    Queued { s with pushing := none, inFlight := rest } := by
  have hrest := h.of_sublist hsub
  have hids : s.ids = entry.userData :: State.ids { s with pushing := none, inFlight := rest } := by
    simp [State.ids, hpushing]
  have hnodup := h.ids
  rw [hids] at hnodup
  constructor
  · exact (List.nodup_cons.mp hnodup).2
  · exact fun id hid => h.fresh id (hids ▸ List.mem_cons_of_mem _ hid)
  · exact hrest.keys
  · intro other hother
    have hknown := hrest.known other hother
    change other.1 ∈ s.ids at hknown
    rw [hids] at hknown
    exact (List.mem_cons.mp hknown).resolve_left (hgone other hother)
  · intro other hother
    refine hrest.rest other ?_
    exact List.mem_append_right _ hother
  · exact hrest.short
  · exact h.resubmit
  · exact h.copied
  · exact hrest.reached

theorem failAll (h : Queued s) (code : Int) : Queued (s.failAll code) := by
  have hnil : Queued { s with inFlight := [] } := h.of_sublist List.nil_subperm
  exact ⟨hnil.ids, hnil.fresh, hnil.keys, hnil.known, hnil.rest, hnil.short, hnil.resubmit, hnil.copied, hnil.reached⟩

theorem started_set {work : Started} {started : List Started} {index : Nat} (hwork : started[index]? = some work)
    (count : Nat) : (started.set index { work with copied := work.copied + count }).map Started.entry =
      started.map Started.entry := by
  rw [List.map_set]
  refine List.ext_getElem? fun place => ?_
  rw [List.getElem?_set]
  split
  · rename_i hplace
    subst hplace
    rw [List.getElem?_map, hwork]
    simp [(List.getElem?_eq_some_iff.mp hwork).1]
  · rfl

theorem copy (h : Queued s) {index count : Nat} {work : Started} (hwork : s.started[index]? = some work)
    (hcount : work.copied + count ≤ work.entry.len) (memory : Nat → UInt8) :
    Queued { s with memory := memory, started := s.started.set index { work with copied := work.copied + count } } := by
  have hentry := started_set hwork count
  have hunfinished : State.unfinished { s with
      memory := memory, started := s.started.set index { work with copied := work.copied + count } } = s.unfinished :=
    congrArg (s.submission ++ ·) hentry
  have hids : State.ids { s with
      memory := memory, started := s.started.set index { work with copied := work.copied + count } } = s.ids := by
    have hmap := congrArg (List.map Sqe.userData) hentry
    rw [List.map_map, List.map_map] at hmap
    exact congrArg (fun part => s.pushing.toList.map Sqe.userData ++ (s.submission.map Sqe.userData ++
      (part ++ s.completion.map Cqe.userData))) hmap
  constructor
  · rw [hids]
    exact h.ids
  · rw [hids]
    exact h.fresh
  · exact h.keys
  · rw [hids]
    exact h.known
  · unfold State.entries
    rw [hunfinished]
    exact h.rest
  · exact h.short
  · exact h.resubmit
  · intro other hother
    rcases List.mem_or_eq_of_mem_set hother with hother | rfl
    · exact h.copied other hother
    · exact hcount
  · exact h.reached

theorem finish (h : Queued s) {index : Nat} {work : Started} (hwork : s.started[index]? = some work) {result : Int}
    (hresult : result.toNat ≤ work.copied) :
    Queued { s with
      started := s.started.eraseIdx index
      completion := s.completion ++ [⟨work.entry.userData, result⟩] } := by
  obtain ⟨hindex, rfl⟩ := List.getElem?_eq_some_iff.mp hwork
  have hperm := List.getElem_cons_eraseIdx_perm hindex
  have hmem := List.mem_of_getElem? hwork
  have hids : (State.ids { s with
      started := s.started.eraseIdx index
      completion := s.completion ++ [⟨s.started[index].entry.userData, result⟩] }).Perm s.ids := by
    refine List.perm_iff_count.mpr fun id => ?_
    have hcount := (hperm.map fun work => work.entry.userData).count_eq id
    simp only [State.ids, List.map_cons, List.map_nil, List.map_append, List.count_append, List.count_cons,
      List.count_nil] at hcount ⊢
    omega
  constructor
  · exact hids.nodup_iff.mpr h.ids
  · exact fun id hid => h.fresh id (hids.mem_iff.mp hid)
  · exact h.keys
  · exact fun entry hentry => hids.mem_iff.mpr (h.known entry hentry)
  · intro entry hentry
    refine h.rest entry ?_
    simp only [State.entries, State.unfinished, List.mem_append, List.mem_map] at hentry ⊢
    refine hentry.imp_right (Or.imp_right ?_)
    rintro ⟨other, hother, rfl⟩
    exact ⟨other, List.mem_of_mem_eraseIdx hother, rfl⟩
  · exact h.short
  · exact h.resubmit
  · exact fun other hother => h.copied other (List.mem_of_mem_eraseIdx hother)
  · intro done hdone op hop
    rcases List.mem_append.mp hdone with hdone | hdone
    · exact h.reached done hdone op hop
    · cases List.mem_singleton.mp hdone
      have hentry : s.started[index].entry ∈ s.entries :=
        List.mem_append_right _ (List.mem_append_right _ (List.mem_map_of_mem hmem))
      have hlen := congrArg Sqe.len (h.rest _ hentry op hop)
      have hcopied := h.copied _ hmem
      have hmod := Nat.mod_le (op.buf.len - op.filled) (2 ^ 32)
      simp only [InFlight.entry] at hlen
      show result.toNat ≤ op.buf.len - op.filled
      omega

/-- A completion is taken from the queue, and its read from the map. -/
theorem taken (h : Queued s) {done : Cqe} {completion : List Cqe} (hcompletion : s.completion = done :: completion)
    {rest : List (Nat × InFlight)} (hsub : rest.Subperm s.inFlight) (hgone : ∀ other ∈ rest, other.1 ≠ done.userData) :
    Queued { s with completion := completion, inFlight := rest } := by
  have hrest := h.of_sublist hsub
  have hids : s.ids.Perm (done.userData :: State.ids { s with completion := completion, inFlight := rest }) := by
    refine List.perm_iff_count.mpr fun id => ?_
    simp only [State.ids, hcompletion, List.map_cons, List.count_append, List.count_cons]
    omega
  have hnodup := hids.nodup_iff.mp h.ids
  constructor
  · exact (List.nodup_cons.mp hnodup).2
  · exact fun id hid => h.fresh id (hids.mem_iff.mpr (List.mem_cons_of_mem _ hid))
  · exact hrest.keys
  · intro other hother
    exact (List.mem_cons.mp (hids.mem_iff.mp (hrest.known other hother))).resolve_left (hgone other hother)
  · exact hrest.rest
  · exact hrest.short
  · exact h.resubmit
  · exact h.copied
  · intro other hother
    refine hrest.reached other ?_
    exact hcompletion ▸ List.mem_cons_of_mem _ hother

theorem gone {id : Nat} {op : InFlight} {rest : List (Nat × InFlight)} (h : Queued s) (hop : remove id s.inFlight = some (op, rest)) :
    rest.Subperm s.inFlight ∧ ∀ other ∈ rest, other.1 ≠ id := by
  have hperm := remove_perm hop
  refine ⟨(List.sublist_cons_self _ _).subperm.trans hperm.symm.subperm, fun other hother heq => ?_⟩
  have hkeys := (hperm.map Prod.fst).nodup_iff.mp h.keys
  exact (List.nodup_cons.mp hkeys).1 (List.mem_map.mpr ⟨other, hother, heq⟩)

theorem reapOne (h : Queued s) {done : Cqe} {completion : List Cqe} (hcompletion : s.completion = done :: completion)
    {resubmit : List InFlight} (hshort : ∀ op ∈ resubmit, op.filled < op.buf.len) (count : Nat) :
    Queued ({ s with completion := completion }.reapOne done count resubmit) := by
  unfold State.reapOne
  cases hop : remove done.userData s.inFlight with
  | none =>
      simp only
      exact (h.taken hcompletion (List.Subperm.refl _) (remove_none hop)).of_control _ _ hshort
  | some found =>
      obtain ⟨op, rest⟩ := found
      obtain ⟨hsub, hgone⟩ := h.gone hop
      have htaken := (h.taken hcompletion hsub hgone).of_control (.reap count resubmit) s.requests hshort
      simp only
      split
      · exact htaken.send _ _
      · split
        · exact htaken.send _ _
        · split
          · rename_i hfilled
            refine htaken.of_control (.reap count (resubmit ++ [_])) s.requests fun other hother => ?_
            rcases List.mem_append.mp hother with hother | hother
            · exact hshort other hother
            · cases List.mem_singleton.mp hother
              exact hfilled
          · exact htaken.send _ _

theorem step {file : List UInt8} {event : Event} {u : State} (h : Queued s) (hstep : Move file s event u) : Queued u := by
  have hresubmit := h.resubmit
  cases hstep with
  | call hopen hptrs hapart =>
      exact ⟨h.ids, h.fresh, h.keys, h.known, h.rest, h.short, h.resubmit, h.copied, h.reached⟩
  | release reply => exact ⟨h.ids, h.fresh, h.keys, h.known, h.rest, h.short, h.resubmit, h.copied, h.reached⟩
  | close => exact ⟨h.ids, h.fresh, h.keys, h.known, h.rest, h.short, h.resubmit, h.copied, h.reached⟩
  | receive hcontrol hrequests => exact h.of_control _ _ (by simp [Control.resubmit])
  | stop hcontrol => exact h.of_control _ _ (by simp [Control.resubmit])
  | busy hcontrol => exact h.of_control _ _ (by simp [Control.resubmit])
  | submit hpushing hcontrol =>
      exact (h.of_control (.scatter _) s.requests (by simp [Control.resubmit])).submitEntry hpushing
  | submitted hcontrol hreads hnone => exact h.of_control _ _ (by simp [hnone])
  | push hpushing => exact h.push hpushing
  | flush hpushing count => exact h.take count
  | flushFails hpushing hop code =>
      obtain ⟨hsub, hgone⟩ := h.gone hop
      exact (h.flushFails hpushing hsub hgone).send _ _
  | forget hpushing hop code => exact h.flushFails hpushing (List.Subperm.refl _) (remove_none hop)
  | submitAndWait hcontrol count => exact (h.take count).of_control _ _ (by simp [Control.resubmit])
  | submitAndWaitFails hcontrol code => exact (h.failAll code).of_control _ _ (by simp [Control.resubmit])
  | collect hcontrol => exact h.of_control _ _ (by simp [Control.resubmit])
  | reaped hcontrol =>
      rw [hcontrol] at hresubmit
      exact h.of_control _ _ hresubmit
  | reap hcontrol hcompletion =>
      rw [hcontrol] at hresubmit
      exact h.reapOne hcompletion hresubmit _
  | resubmit hpushing hcontrol =>
      rw [hcontrol] at hresubmit
      exact (h.of_control (.again _) s.requests fun op hop => hresubmit op (List.mem_cons_of_mem _ hop)).submitEntry hpushing
  | resubmitted hcontrol => exact h.of_control _ _ (by simp [Control.resubmit])
  | copy hwork hcount =>
      refine h.copy hwork ?_ _
      have hlen := Memory.length_slice file
      rw [hlen]
      omega
  | finish hwork hresult => exact h.finish hwork hresult

theorem opened (memory : Nat → UInt8) : Queued (.opened memory) := by
  constructor <;> simp [State.opened, State.ids, State.entries, State.unfinished, Control.resubmit]

theorem entries_take (s : State) (count : Nat) {entry : Sqe} (h : entry ∈ (s.take count).entries) : entry ∈ s.entries :=
  List.mem_append.mpr ((List.mem_append.mp h).imp_right (unfinished_take s count).mem_iff.mp)

/-- An entry after a step: it was there before, and its read is still in flight if it was, or it is new. -/
def Entered (s u : State) (entry : Sqe) : Prop :=
  (entry ∈ s.entries ∧ ∀ op, (entry.userData, op) ∈ s.inFlight → (entry.userData, op) ∈ u.inFlight) ∨
    ∃ op, entry = op.entry entry.userData ∧ (entry.userData, op) ∈ u.inFlight ∧ op.read ∈ s.pending

theorem entered_submitEntry {t : State} (h : Queued t) (hpushing : t.pushing = none) {op : InFlight}
    (hentries : ∀ entry ∈ t.entries, entry ∈ s.entries) (hinFlight : t.inFlight = s.inFlight) (hread : op.read ∈ s.pending) :
    ∀ entry ∈ ({ t with nextId := t.nextId + 1 }.submitEntry t.nextId op).entries,
      Entered s ({ t with nextId := t.nextId + 1 }.submitEntry t.nextId op) entry := by
  unfold State.submitEntry
  split
  · exact fun entry hentry => Or.inl ⟨hentries entry hentry, fun other hother => hinFlight ▸ hother⟩
  · have hinsert : insert t.nextId op t.inFlight = (t.nextId, op) :: t.inFlight :=
      insert_fresh fun entry hentry => (h.keys_lt entry hentry).ne
    intro entry hentry
    have hnew : entry = op.entry t.nextId ∨ entry ∈ t.entries := by
      simp only [State.entries, hpushing, Option.toList_some, Option.toList_none, List.nil_append] at hentry ⊢
      exact List.mem_cons.mp hentry
    unfold Entered
    simp only [hinsert]
    rcases hnew with rfl | hold
    · exact Or.inr ⟨op, rfl, List.mem_cons_self, hread⟩
    · exact Or.inl ⟨hentries entry hold, fun other hother => List.mem_cons_of_mem _ (hinFlight ▸ hother)⟩

/-- The read of a key that has left the map had an entry that has left the ring. -/
theorem not_queued {id : Nat} {op : InFlight} {rest : List (Nat × InFlight)} (hop : remove id s.inFlight = some (op, rest))
    {entry : Sqe} (hne : entry.userData ≠ id) {other : InFlight} (h : (entry.userData, other) ∈ s.inFlight) :
    (entry.userData, other) ∈ rest := by
  rcases List.mem_cons.mp ((remove_perm hop).mem_iff.mp h) with heq | h
  · exact absurd (congrArg Prod.fst heq) hne
  · exact h

theorem entered_reapOne (h : Queued s) {done : Cqe} {count : Nat} {resubmit : List InFlight} {rest : List Cqe}
    (hcompletion : s.completion = done :: rest) :
    ∀ entry ∈ ({ s with completion := rest }.reapOne done count resubmit).entries,
      Entered s ({ s with completion := rest }.reapOne done count resubmit) entry := by
  have hne : ∀ entry ∈ s.entries, entry.userData ≠ done.userData := by
    have hperm : s.ids.Perm (done.userData :: State.ids { s with completion := rest }) := by
      refine List.perm_iff_count.mpr fun id => ?_
      simp only [State.ids, hcompletion, List.map_cons, List.count_append, List.count_cons]
      omega
    have hgone := (List.nodup_cons.mp (hperm.nodup_iff.mp h.ids)).1
    intro entry hentry heq
    have hkept : entry ∈ State.entries { s with completion := rest } := hentry
    exact hgone (heq ▸ entry_mem_ids hkept)
  unfold State.reapOne
  simp only
  split
  · exact fun entry hentry => Or.inl ⟨hentry, fun other hother => hother⟩
  · rename_i op others hop
    have hkept : ∀ entry ∈ s.entries, ∀ other, (entry.userData, other) ∈ s.inFlight → (entry.userData, other) ∈ others :=
      fun entry hentry other hother => not_queued hop (hne entry hentry) hother
    split
    · exact fun entry hentry => Or.inl ⟨hentry, hkept entry hentry⟩
    · split
      · exact fun entry hentry => Or.inl ⟨hentry, hkept entry hentry⟩
      · split <;> exact fun entry hentry => Or.inl ⟨hentry, hkept entry hentry⟩

theorem entries_step {file : List UInt8} {event : Event} {u : State} (h : Queued s) (hstep : Move file s event u)
    (hfails : ∀ code, event ≠ .submitAndWaitFails code) {entry : Sqe} (hentry : entry ∈ u.entries) : Entered s u entry := by
  cases hstep with
  | call hopen hptrs hapart => exact Or.inl ⟨hentry, fun _ hop => hop⟩
  | release reply => exact Or.inl ⟨hentry, fun _ hop => hop⟩
  | close => exact Or.inl ⟨hentry, fun _ hop => hop⟩
  | receive hcontrol hrequests => exact Or.inl ⟨hentry, fun _ hop => hop⟩
  | stop hcontrol => exact Or.inl ⟨hentry, fun _ hop => hop⟩
  | busy hcontrol => exact Or.inl ⟨hentry, fun _ hop => hop⟩
  | @submit op ops hpushing hcontrol =>
      refine entered_submitEntry (s := s) (t := { s with control := .scatter ops }) ?_ hpushing (fun _ hmem => hmem) rfl ?_ entry hentry
      · exact h.of_control _ _ (by simp [Control.resubmit])
      · refine List.mem_append_right _ (List.mem_append_left _ ?_)
        rw [hcontrol]
        exact List.mem_cons_self
  | submitted hcontrol hreads hnone => exact Or.inl ⟨hentry, fun _ hop => hop⟩
  | push hpushing =>
      refine Or.inl ⟨?_, fun _ hop => hop⟩
      simp only [State.entries, State.unfinished, hpushing, Option.toList_some, Option.toList_none, List.mem_append,
        List.mem_singleton, List.not_mem_nil, false_or] at hentry ⊢
      tauto
  | flush hpushing count => exact Or.inl ⟨entries_take s count hentry, fun _ hop => hop⟩
  | @flushFails pushed op rest hpushing hop code =>
      refine Or.inl ⟨List.mem_append_right _ hentry, fun other hother => not_queued hop (fun heq => ?_) hother⟩
      have hids : s.ids = pushed.userData :: State.ids { s with pushing := none, inFlight := rest } := by
        simp [State.ids, hpushing]
      have hgone := (List.nodup_cons.mp (hids ▸ h.ids)).1
      exact hgone (heq ▸ entry_mem_ids hentry)
  | forget hpushing hop code => exact Or.inl ⟨List.mem_append_right _ hentry, fun _ hop => hop⟩
  | submitAndWait hcontrol count => exact Or.inl ⟨entries_take s count hentry, fun _ hop => hop⟩
  | submitAndWaitFails hcontrol code => exact absurd rfl (hfails code)
  | collect hcontrol => exact Or.inl ⟨hentry, fun _ hop => hop⟩
  | reaped hcontrol => exact Or.inl ⟨hentry, fun _ hop => hop⟩
  | reap hcontrol hcompletion => exact h.entered_reapOne hcompletion entry hentry
  | @resubmit op ops hpushing hcontrol =>
      refine entered_submitEntry (s := s) (t := { s with control := .again ops }) ?_ hpushing (fun _ hmem => hmem) rfl ?_ entry hentry
      · refine h.of_control _ _ fun other hother => h.resubmit other ?_
        rw [hcontrol]
        exact List.mem_cons_of_mem _ hother
      · refine List.mem_append_right _ (List.mem_append_left _ ?_)
        rw [hcontrol]
        exact List.mem_cons_self
  | resubmitted hcontrol => exact Or.inl ⟨hentry, fun _ hop => hop⟩
  | copy hwork hcount =>
      refine Or.inl ⟨?_, fun _ hop => hop⟩
      simp only [State.entries, State.unfinished, started_set hwork] at hentry
      exact hentry
  | finish hwork hresult =>
      refine Or.inl ⟨?_, fun _ hop => hop⟩
      simp only [State.entries, State.unfinished, List.mem_append, List.mem_map] at hentry ⊢
      refine hentry.imp_right (Or.imp_right ?_)
      rintro ⟨work, hwork, rfl⟩
      exact ⟨work, List.mem_of_mem_eraseIdx hwork, rfl⟩

end Queued

/-- The owners of memory: the number of a read, with its buffer. -/
def State.owners (s : State) : List (Nat × IoBuf) := s.pending.map (fun op => (op.reply, op.buf)) ++ s.held

/-- A step that asks for nothing new, and the reads it answers. -/
structure Moved (s u : State) (answered : List ReadOp) : Prop where
  pending : s.pending.Perm (answered ++ u.pending)
  answers : u.answers.map Prod.fst = s.answers.map Prod.fst ++ answered.map ReadOp.reply
  reads : u.reads = s.reads
  calls : u.calls = s.calls
  held : ∀ buf ∈ u.held, buf ∈ s.held ∨ ∃ op ∈ answered, buf = (op.reply, op.buf)

namespace Moved

variable {s t u : State}

theorem owners {answered : List ReadOp} (h : Moved s u answered) {owner : Nat × IoBuf} (howner : owner ∈ u.owners) :
    owner ∈ s.owners := by
  rcases List.mem_append.mp howner with howner | howner
  · obtain ⟨op, hop, rfl⟩ := List.mem_map.mp howner
    exact List.mem_append_left _ (List.mem_map.mpr ⟨op, h.pending.mem_iff.mpr (List.mem_append_right _ hop), rfl⟩)
  · rcases h.held owner howner with howner | ⟨op, hop, rfl⟩
    · exact List.mem_append_right _ howner
    · exact List.mem_append_left _ (List.mem_map.mpr ⟨op, h.pending.mem_iff.mpr (List.mem_append_left _ hop), rfl⟩)

theorem of_pending (hpending : s.pending.Perm u.pending) (hanswers : u.answers = s.answers) (hreads : u.reads = s.reads)
    (hcalls : u.calls = s.calls) (hheld : ∀ buf ∈ u.held, buf ∈ s.held) : Moved s u [] :=
  ⟨hpending, by rw [hanswers, List.map_nil, List.append_nil], hreads, hcalls, fun buf hbuf => Or.inl (hheld buf hbuf)⟩

theorem send {op : InFlight} (hpending : s.pending.Perm (op.read :: t.pending)) (hanswers : t.answers = s.answers)
    (hreads : t.reads = s.reads) (hcalls : t.calls = s.calls) (hheld : t.held = s.held) {answer : Except ReadError IoBuf}
    (hbuf : ∀ buf, answer = .ok buf → buf = op.buf) : Moved s (t.send op.reply answer) [op.read] := by
  cases answer with
  | error error =>
      refine ⟨hpending, ?_, hreads, hcalls, fun buf h => Or.inl (hheld ▸ h)⟩
      simp [State.send, hanswers, InFlight.read]
  | ok buf =>
      cases hbuf buf rfl
      refine ⟨hpending, ?_, hreads, hcalls, fun buf h => ?_⟩
      · simp [State.send, hanswers, InFlight.read]
      · rcases List.mem_append.mp h with h | h
        · exact Or.inl (hheld ▸ h)
        · exact Or.inr ⟨op.read, List.mem_singleton_self _, List.mem_singleton.mp h⟩

theorem pending_map (s : State) (inFlight : List (Nat × InFlight)) {rest : List (Nat × InFlight)} {id : Nat} {op : InFlight}
    (hperm : inFlight.Perm ((id, op) :: rest)) :
    (State.pending { s with inFlight := inFlight }).Perm (op.read :: State.pending { s with inFlight := rest }) := by
  refine List.perm_iff_count.mpr fun read => ?_
  have hcount := (hperm.map fun entry => entry.2.read).count_eq read
  simp only [State.pending, List.map_cons, List.count_append, List.count_cons] at hcount ⊢
  omega

theorem submitEntry (h : Queued t) {op : InFlight} (hpending : s.pending.Perm (op.read :: t.pending))
    (hanswers : t.answers = s.answers) (hreads : t.reads = s.reads) (hcalls : t.calls = s.calls) (hheld : t.held = s.held) :
    ∃ answered, Moved s ({ t with nextId := t.nextId + 1 }.submitEntry t.nextId op) answered := by
  unfold State.submitEntry
  split
  · refine ⟨_, send (t := { t with nextId := t.nextId + 1 }) hpending hanswers hreads hcalls hheld fun buf heq => ?_⟩
    cases heq
    rfl
  · refine ⟨[], of_pending (hpending.trans ?_) hanswers hreads hcalls fun buf hbuf => hheld ▸ hbuf⟩
    have hinsert : insert t.nextId op t.inFlight = (t.nextId, op) :: t.inFlight :=
      insert_fresh fun entry hentry => (h.keys_lt entry hentry).ne
    exact (pending_map t _ (List.Perm.of_eq hinsert)).symm

theorem reapOne {done : Cqe} {count : Nat} {resubmit : List InFlight} (hcontrol : s.control = .reap (count + 1) resubmit)
    (rest : List Cqe) : ∃ answered, Moved s ({ s with completion := rest }.reapOne done count resubmit) answered := by
  have hkept : ∀ inFlight : List (Nat × InFlight), State.pending { s with inFlight := inFlight } =
      State.pending { s with completion := rest, inFlight := inFlight, control := .reap count resubmit } := by
    intro inFlight
    simp only [State.pending, hcontrol, Control.reads]
  unfold State.reapOne
  cases hop : remove done.userData s.inFlight with
  | none =>
      simp only
      exact ⟨[], of_pending (by rw [← hkept s.inFlight]) rfl rfl rfl fun buf hbuf => hbuf⟩
  | some found =>
      obtain ⟨op, others⟩ := found
      have hpending := pending_map s s.inFlight (remove_perm hop)
      rw [hkept others] at hpending
      have sent : ∀ answer : Except ReadError IoBuf, (∀ buf, answer = .ok buf → buf = op.buf) →
          Moved s (State.send { s with completion := rest, inFlight := others, control := .reap count resubmit } op.reply answer)
            [op.read] := fun answer hbuf => send hpending rfl rfl rfl rfl hbuf
      simp only
      split
      · exact ⟨_, sent _ fun buf heq => by cases heq⟩
      · split
        · exact ⟨_, sent _ fun buf heq => by cases heq⟩
        · split
          · refine ⟨[], of_pending (hpending.trans ?_) rfl rfl rfl fun buf hbuf => hbuf⟩
            refine List.perm_iff_count.mpr fun read => ?_
            simp only [State.pending, Control.reads, List.map_append, List.map_cons, List.map_nil, List.count_append,
              List.count_cons, List.count_nil, InFlight.read]
            omega
          · exact ⟨_, sent (.ok op.buf) fun buf heq => by cases heq; rfl⟩

theorem failAll (hcontrol : s.control = .wait) (code : Int) :
    Moved s { s.failAll code with control := .top } (s.inFlight.map fun entry => entry.2.read) := by
  refine ⟨?_, ?_, rfl, rfl, fun buf hbuf => Or.inl hbuf⟩
  · refine List.perm_iff_count.mpr fun read => ?_
    simp only [State.pending, State.failAll, hcontrol, Control.reads, List.map_nil, List.count_append, List.count_nil]
    omega
  · simp [State.failAll, InFlight.read, Function.comp_def]

theorem step {file : List UInt8} {event : Event} (h : Queued s) (hstep : Move file s event u)
    (hcall : ∀ extents ptrs, event ≠ .call extents ptrs) : ∃ answered, Moved s u answered := by
  have hsame : ∀ {v : State}, v.pending = s.pending → v.answers = s.answers → v.reads = s.reads → v.calls = s.calls →
      v.held = s.held → ∃ answered, Moved s v answered := fun hpending hanswers hreads hcalls hheld =>
    ⟨[], of_pending (List.Perm.of_eq hpending.symm) hanswers hreads hcalls fun buf hbuf => hheld ▸ hbuf⟩
  have hpending : ∀ {control : Control}, control.reads = s.control.reads →
      State.pending { s with control := control } = s.pending := by
    intro control hreads
    simp only [State.pending, hreads]
  cases hstep with
  | call hopen hptrs hapart => exact absurd rfl (hcall _ _)
  | release reply => exact ⟨[], of_pending (List.Perm.refl _) rfl rfl rfl fun buf hbuf => (List.mem_filter.mp hbuf).1⟩
  | close => exact hsame rfl rfl rfl rfl rfl
  | receive hcontrol hrequests =>
      refine ⟨[], of_pending (List.perm_iff_count.mpr fun read => ?_) rfl rfl rfl fun buf hbuf => hbuf⟩
      simp only [State.pending, hcontrol, hrequests, Control.reads, List.flatten_cons, List.count_append, List.count_nil]
      omega
  | stop hcontrol => exact hsame (hpending (by rw [hcontrol]; rfl)) rfl rfl rfl rfl
  | busy hcontrol => exact hsame (hpending (by rw [hcontrol]; rfl)) rfl rfl rfl rfl
  | @submit op ops hpushing hcontrol =>
      have hrest : Queued { s with control := .scatter ops } := h.of_control _ _ (by simp [Control.resubmit])
      refine submitEntry hrest ?_ rfl rfl rfl rfl
      · show s.pending.Perm (op :: State.pending { s with control := .scatter ops })
        refine List.perm_iff_count.mpr fun read => ?_
        simp only [State.pending, hcontrol, Control.reads, List.count_append, List.count_cons]
        omega
  | submitted hcontrol hreads hnone => exact hsame (hpending (by rw [hcontrol, hreads]; rfl)) rfl rfl rfl rfl
  | push hpushing => exact hsame rfl rfl rfl rfl rfl
  | flush hpushing count => exact hsame rfl rfl rfl rfl rfl
  | @flushFails entry op rest hpushing hop code =>
      exact ⟨_, send (t := { s with pushing := none, inFlight := rest }) (pending_map s s.inFlight (remove_perm hop))
        rfl rfl rfl rfl fun buf heq => by cases heq⟩
  | forget hpushing hop code => exact hsame rfl rfl rfl rfl rfl
  | submitAndWait hcontrol count => exact hsame (hpending (by rw [hcontrol]; rfl)) rfl rfl rfl rfl
  | submitAndWaitFails hcontrol code => exact ⟨_, failAll hcontrol code⟩
  | collect hcontrol => exact hsame (hpending (by rw [hcontrol]; rfl)) rfl rfl rfl rfl
  | reaped hcontrol => exact hsame (hpending (by rw [hcontrol]; rfl)) rfl rfl rfl rfl
  | reap hcontrol hcompletion => exact reapOne hcontrol _
  | @resubmit op ops hpushing hcontrol =>
      have hrest : Queued { s with control := .again ops } := by
        refine h.of_control _ _ fun other hother => h.resubmit other ?_
        rw [hcontrol]
        exact List.mem_cons_of_mem _ hother
      refine submitEntry hrest ?_ rfl rfl rfl rfl
      · refine List.perm_iff_count.mpr fun read => ?_
        simp only [State.pending, hcontrol, Control.reads, List.map_cons, List.count_append, List.count_cons]
        omega
  | resubmitted hcontrol => exact hsame (hpending (by rw [hcontrol]; rfl)) rfl rfl rfl rfl
  | copy hwork hcount => exact hsame rfl rfl rfl rfl rfl
  | finish hwork hresult => exact hsame rfl rfl rfl rfl rfl

end Moved

/-- Every read that was asked for is in one place. -/
structure Accounted (s : State) : Prop where
  asked : s.asked.Perm (List.range s.reads.length)
  extents : ∀ op ∈ s.pending, s.reads[op.reply]? = some ⟨op.offset, op.buf.len⟩
  calls : ∀ call ∈ s.calls, ∀ read ∈ call, s.reads[read.2]? = some read.1
  held : ∀ buf ∈ s.held, buf.1 ∈ s.answers.map Prod.fst

namespace Accounted

variable {s u : State}

theorem nodup (h : Accounted s) : s.asked.Nodup := h.asked.nodup_iff.mpr List.nodup_range

theorem moved (h : Accounted s) {answered : List ReadOp} (hmoved : Moved s u answered) : Accounted u where
  asked := by
    rw [hmoved.reads]
    refine List.Perm.trans (List.perm_iff_count.mpr fun id => ?_) h.asked
    have hcount := (hmoved.pending.map ReadOp.reply).count_eq id
    simp only [State.asked, hmoved.answers, List.map_append, List.count_append] at hcount ⊢
    omega
  extents op hop := by
    rw [hmoved.reads]
    exact h.extents op (hmoved.pending.mem_iff.mpr (List.mem_append_right _ hop))
  calls := by
    rw [hmoved.reads, hmoved.calls]
    exact h.calls
  held buf hbuf := by
    rw [hmoved.answers]
    rcases hmoved.held buf hbuf with hbuf | ⟨op, hop, rfl⟩
    · exact List.mem_append_left _ (h.held buf hbuf)
    · exact List.mem_append_right _ (List.mem_map_of_mem hop)

/-- What is answered has no owner but the caller. -/
theorem answered_ne (h : Accounted s) {answered : List ReadOp} (hmoved : Moved s u answered) (hheld : u.held = s.held)
    {op : ReadOp} (hop : op ∈ answered) {owner : Nat × IoBuf} (howner : owner ∈ u.owners) : op.reply ≠ owner.1 := by
  intro heq
  have hnodup : (answered.map ReadOp.reply ++ u.pending.map ReadOp.reply ++ s.answers.map Prod.fst).Nodup := by
    rw [← List.map_append]
    exact ((hmoved.pending.map ReadOp.reply).append_right _).nodup_iff.mp h.nodup
  rcases List.mem_append.mp howner with howner | howner
  · obtain ⟨other, hother, rfl⟩ := List.mem_map.mp howner
    exact (List.nodup_append.mp (List.nodup_append.mp hnodup).1).2.2 _ (List.mem_map_of_mem hop) _
      (List.mem_map_of_mem hother) heq
  · exact (List.nodup_append.mp hnodup).2.2 _ (List.mem_append_left _ (List.mem_map_of_mem hop)) _
      (h.held owner (hheld ▸ howner)) heq

theorem readOps_reply (first : Nat) (extents : List Extent) (ptrs : List Nat) (hptrs : ptrs.length = extents.length) :
    (readOps first extents ptrs).map ReadOp.reply = List.range' first extents.length := by
  induction extents generalizing first ptrs with
  | nil => rfl
  | cons extent extents ih =>
      cases ptrs with
      | nil => cases hptrs
      | cons ptr ptrs =>
          simp only [readOps, List.map_cons, List.length_cons, List.range'_succ]
          rw [ih (first + 1) ptrs (Nat.succ.inj hptrs)]

theorem readOps_extents (first : Nat) (extents : List Extent) (ptrs : List Nat) (earlier : List Extent)
    (hearlier : earlier.length = first) :
    ∀ op ∈ readOps first extents ptrs, (earlier ++ extents)[op.reply]? = some ⟨op.offset, op.buf.len⟩ := by
  induction extents generalizing first ptrs earlier with
  | nil =>
      intro op hop
      cases ptrs <;> cases hop
  | cons extent extents ih =>
      cases ptrs with
      | nil =>
          intro op hop
          cases hop
      | cons ptr ptrs =>
          intro op hop
          rcases List.mem_cons.mp hop with rfl | hop
          · subst hearlier
            simp
          · have hrest := ih (first + 1) ptrs (earlier ++ [extent]) (by simp [hearlier]) op hop
            rwa [List.append_assoc, List.singleton_append] at hrest

theorem pending_call (s : State) (ops : List ReadOp) (extents : List Extent) (hnil : extents.isEmpty = true → ops = []) :
    (State.pending { s with requests := if extents.isEmpty then s.requests else s.requests ++ [ops] }).Perm
      (ops ++ s.pending) := by
  split
  · rename_i hempty
    rw [hnil hempty]
    exact List.Perm.refl _
  · refine List.perm_iff_count.mpr fun read => ?_
    simp only [State.pending, List.flatten_append, List.flatten_cons, List.flatten_nil, List.append_nil, List.count_append]
    omega

theorem readOps_nil {first : Nat} {extents : List Extent} {ptrs : List Nat} (h : extents.isEmpty = true) :
    readOps first extents ptrs = [] := by
  rw [List.isEmpty_iff.mp h]
  cases ptrs <;> rfl

theorem call (h : Accounted s) {extents : List Extent} {ptrs : List Nat} (hptrs : ptrs.length = extents.length) :
    Accounted { s with
      requests := if extents.isEmpty then s.requests else s.requests ++ [readOps s.reads.length extents ptrs]
      reads := s.reads ++ extents
      calls := s.calls ++ [extents.zipIdx s.reads.length] } := by
  have hpending := pending_call s (readOps s.reads.length extents ptrs) extents readOps_nil
  have hearlier : ∀ {place : Nat} {extent : Extent}, s.reads[place]? = some extent →
      (s.reads ++ extents)[place]? = some extent := by
    intro place extent hplace
    rw [List.getElem?_append_left (List.getElem?_eq_some_iff.mp hplace).1]
    exact hplace
  constructor
  · refine ((hpending.map ReadOp.reply).append_right _).trans ?_
    rw [List.map_append, readOps_reply _ _ _ hptrs, List.append_assoc]
    refine (h.asked.append_left _).trans (List.perm_append_comm.trans ?_)
    have hrange : List.range' 0 s.reads.length ++ List.range' (0 + s.reads.length) extents.length =
        List.range' 0 (s.reads.length + extents.length) := List.range'_append_1
    rw [Nat.zero_add] at hrange
    rw [List.length_append, List.range_eq_range', List.range_eq_range', hrange]
  · intro op hop
    rcases List.mem_append.mp (hpending.mem_iff.mp hop) with hop | hop
    · exact readOps_extents _ _ _ _ rfl op hop
    · exact hearlier (h.extents op hop)
  · intro call hcall read hread
    rcases List.mem_append.mp hcall with hcall | hcall
    · exact hearlier (h.calls call hcall read hread)
    · cases List.mem_singleton.mp hcall
      have hplace := List.mem_zipIdx_iff_le_and_getElem?_sub.mp hread
      show (s.reads ++ extents)[read.2]? = some read.1
      rw [List.getElem?_append_right hplace.1]
      exact hplace.2
  · exact h.held

theorem step {file : List UInt8} {event : Event} (h : Accounted s) (hqueued : Queued s) (hstep : Move file s event u) :
    Accounted u := by
  by_cases hcall : ∃ extents ptrs, event = .call extents ptrs
  · obtain ⟨extents, ptrs, rfl⟩ := hcall
    cases hstep with
    | call hopen hptrs hapart => exact h.call hptrs
  · obtain ⟨answered, hmoved⟩ := Moved.step hqueued hstep fun extents ptrs heq => hcall ⟨extents, ptrs, heq⟩
    exact h.moved hmoved

theorem opened (memory : Nat → UInt8) : Accounted (.opened memory) := by
  constructor <;> simp [State.opened, State.asked, State.pending, Control.reads]

end Accounted

/-- New buffers lie clear of what the ring may still write to. -/
def Clear (s : State) (event : Event) : Prop :=
  ∀ extents ptrs, event = .call extents ptrs → ∀ op ∈ readOps s.reads.length extents ptrs, ∀ entry ∈ s.entries,
    Memory.Apart entry.ptr entry.len op.buf.ptr op.buf.len

/-- A buffer has one owner, and an entry writes to the buffer of its own read. -/
structure Separate (s : State) : Prop where
  apart : ∀ a ∈ s.owners, ∀ b ∈ s.owners, a.1 ≠ b.1 → a.2.Apart b.2
  clear : ∀ entry ∈ s.entries, ∀ owner ∈ s.owners, (∀ op, (entry.userData, op) ∈ s.inFlight → op.reply ≠ owner.1) →
    Memory.Apart entry.ptr entry.len owner.2.ptr owner.2.len

namespace Separate

variable {s u : State}

/-- The entry of a read lies inside its buffer. -/
theorem entry_apart {op : InFlight} {id : Nat} {buf : IoBuf} (hshort : op.filled < op.buf.len) (h : op.buf.Apart buf) :
    Memory.Apart (op.entry id).ptr (op.entry id).len buf.ptr buf.len := by
  have hmod := Nat.mod_le (op.buf.len - op.filled) (2 ^ 32)
  refine h.mono ?_ ?_ (Nat.le_refl _) (Nat.le_refl _)
  · exact Nat.le_add_right _ _
  · simp only [InFlight.entry]
    omega

theorem call (h : Separate s) {extents : List Extent} {ptrs : List Nat}
    (hapart : ((readOps s.reads.length extents ptrs).map ReadOp.buf ++ s.owned).Pairwise IoBuf.Apart)
    (hclear : Clear s (.call extents ptrs)) : Separate { s with
      requests := if extents.isEmpty then s.requests else s.requests ++ [readOps s.reads.length extents ptrs]
      reads := s.reads ++ extents
      calls := s.calls ++ [extents.zipIdx s.reads.length] } := by
  let ops := readOps s.reads.length extents ptrs
  have hpending := Accounted.pending_call s ops extents Accounted.readOps_nil
  have howners : ∀ owner ∈ State.owners { s with
      requests := if extents.isEmpty then s.requests else s.requests ++ [ops]
      reads := s.reads ++ extents
      calls := s.calls ++ [extents.zipIdx s.reads.length] },
      owner ∈ ops.map (fun op => (op.reply, op.buf)) ++ s.owners := by
    intro owner howner
    unfold State.owners
    rw [← List.append_assoc, ← List.map_append]
    exact ((hpending.map fun op => (op.reply, op.buf)).append_right _).mem_iff.mp howner
  have hpairs : (ops.map (fun op => (op.reply, op.buf)) ++ s.owners).Pairwise fun a b => a.2.Apart b.2 := by
    refine List.pairwise_map.mp ?_
    simpa [State.owners, State.owned, Function.comp_def] using hapart
  have hsymm : Std.Symm fun a b : Nat × IoBuf => a.2.Apart b.2 := ⟨fun _ _ => Memory.Apart.symm⟩
  constructor
  · intro a ha b hb hne
    exact hpairs.forall (howners a ha) (howners b hb) fun heq => hne (congrArg Prod.fst heq)
  · intro entry hentry owner howner hother
    rcases List.mem_append.mp (howners owner howner) with howner | howner
    · obtain ⟨op, hop, rfl⟩ := List.mem_map.mp howner
      exact hclear extents ptrs rfl op hop entry hentry
    · exact h.clear entry hentry owner howner hother

theorem step {file : List UInt8} {event : Event} (h : Separate s) (hqueued : Queued s) (haccounted : Accounted s)
    (hstep : Move file s event u) (hclear : Clear s event) : Separate u := by
  by_cases hcall : ∃ extents ptrs, event = .call extents ptrs
  · obtain ⟨extents, ptrs, rfl⟩ := hcall
    cases hstep with
    | call hopen hptrs hapart => exact h.call hapart hclear
  · obtain ⟨answered, hmoved⟩ := Moved.step hqueued hstep fun extents ptrs heq => hcall ⟨extents, ptrs, heq⟩
    refine ⟨fun a ha b hb => h.apart a (hmoved.owners ha) b (hmoved.owners hb), fun entry hentry owner howner hother => ?_⟩
    have hbefore := hmoved.owners howner
    by_cases hfails : ∃ code, event = .submitAndWaitFails code
    · obtain ⟨code, rfl⟩ := hfails
      cases hstep with
      | submitAndWaitFails hcontrol =>
          exact h.clear entry hentry owner hbefore fun op hop =>
            haccounted.answered_ne (Moved.failAll hcontrol code) rfl (List.mem_map_of_mem hop) howner
    · rcases hqueued.entries_step hstep (fun code heq => hfails ⟨code, heq⟩) hentry with ⟨hentry, hkept⟩ | ⟨op, heq, hop, hread⟩
      · exact h.clear entry hentry owner hbefore fun op hop => hother op (hkept op hop)
      · rw [heq]
        refine entry_apart ((hqueued.step hstep).short _ hop) (h.apart (op.reply, op.buf) ?_ owner hbefore (hother op hop))
        exact List.mem_append_left _ (List.mem_map.mpr ⟨op.read, hread, rfl⟩)

end Separate

end LocalTables.Uring
