import LocalTables.Io.Reactor

/-! What the callers of `submit_reads` get. Every read is answered once; and as long as no buffer is allocated over
memory the ring may still write to, a buffer that comes back holds the bytes of its extent. A ring failure answers the
reads in flight and gives their buffers back while the kernel still has them. -/

namespace LocalTables.Uring

open Memory

/-- What the buffers hold, up to where their reads have come. -/
structure Filled (file : List UInt8) (s : State) : Prop where
  filled : ∀ entry ∈ s.inFlight, Copied s.memory file entry.2.buf.ptr entry.2.offset entry.2.filled
  resubmit : ∀ op ∈ s.control.resubmit, Copied s.memory file op.buf.ptr op.offset op.filled
  started : ∀ work ∈ s.started, ∀ op, (work.entry.userData, op) ∈ s.inFlight →
    Copied s.memory file work.entry.ptr work.entry.offset work.copied
  completed : ∀ done ∈ s.completion, ∀ op, (done.userData, op) ∈ s.inFlight →
    Copied s.memory file (op.buf.ptr + op.filled) (op.offset + op.filled) done.result.toNat
  held : ∀ buf ∈ s.held, ∃ extent, s.reads[buf.1]? = some extent ∧ extent.len = buf.2.len ∧
    Copied s.memory file buf.2.ptr extent.offset extent.len
  answers : ∀ answer ∈ s.answers, ∀ bytes, answer.2 = .ok bytes → ∃ extent, s.reads[answer.1]? = some extent ∧
    bytes = slice file extent.offset extent.len ∧ bytes.length = extent.len

namespace Filled

variable {file : List UInt8} {s t u : State}

/-- Steps that write to no buffer and answer no read with one. -/
theorem mono (h : Filled file s) (hmemory : u.memory = s.memory) (hinFlight : ∀ entry ∈ u.inFlight, entry ∈ s.inFlight)
    (hresubmit : ∀ op ∈ u.control.resubmit, op ∈ s.control.resubmit)
    (hstarted : ∀ work ∈ u.started, work ∈ s.started ∨ work.copied = 0) (hcompletion : ∀ done ∈ u.completion, done ∈ s.completion)
    (hheld : ∀ buf ∈ u.held, buf ∈ s.held) (hanswers : ∀ answer ∈ u.answers, answer ∈ s.answers ∨ ∃ error, answer.2 = .error error)
    (hreads : ∀ (place : Nat) (extent : Extent), s.reads[place]? = some extent → u.reads[place]? = some extent) : Filled file u where
  filled entry hentry := hmemory ▸ h.filled entry (hinFlight entry hentry)
  resubmit op hop := hmemory ▸ h.resubmit op (hresubmit op hop)
  started work hwork op hop := by
    rcases hstarted work hwork with hwork | hzero
    · exact hmemory ▸ h.started work hwork op (hinFlight _ hop)
    · rw [hzero]
      exact Copied.zero _ _ _ _
  completed done hdone op hop := hmemory ▸ h.completed done (hcompletion done hdone) op (hinFlight _ hop)
  held buf hbuf := by
    obtain ⟨extent, hextent, hheld⟩ := h.held buf (hheld buf hbuf)
    exact ⟨extent, hreads _ _ hextent, hmemory ▸ hheld⟩
  answers answer hanswer bytes hbytes := by
    rcases hanswers answer hanswer with hanswer | ⟨error, herror⟩
    · obtain ⟨extent, hextent, heq⟩ := h.answers answer hanswer bytes hbytes
      exact ⟨extent, hreads _ _ hextent, heq⟩
    · rw [herror] at hbytes
      cases hbytes

theorem of_control (h : Filled file s) (control : Control) (requests : List (List ReadOp))
    (hresubmit : ∀ op ∈ control.resubmit, op ∈ s.control.resubmit) :
    Filled file { s with control := control, requests := requests } :=
  h.mono rfl (fun _ hentry => hentry) hresubmit (fun _ hwork => Or.inl hwork) (fun _ hdone => hdone) (fun _ hbuf => hbuf)
    (fun _ hanswer => Or.inl hanswer) fun _ _ hplace => hplace

theorem send_error (h : Filled file s) (reply : Nat) (error : ReadError) : Filled file (s.send reply (.error error)) := by
  refine h.mono rfl (fun _ hentry => hentry) (fun _ hop => hop) (fun _ hwork => Or.inl hwork) (fun _ hdone => hdone)
    (fun _ hbuf => hbuf) (fun answer hanswer => ?_) fun _ _ hplace => hplace
  rcases List.mem_append.mp hanswer with hanswer | hanswer
  · exact Or.inl hanswer
  · cases List.mem_singleton.mp hanswer
    exact Or.inr ⟨error, rfl⟩

/-- A buffer that is full is sent. -/
theorem send_ok (h : Filled file s) {reply : Nat} {buf : IoBuf} {offset : Nat} (hread : s.reads[reply]? = some ⟨offset, buf.len⟩)
    (hfull : Copied s.memory file buf.ptr offset buf.len) : Filled file (s.send reply (.ok buf)) where
  filled := h.filled
  resubmit := h.resubmit
  started := h.started
  completed := h.completed
  held other hother := by
    rcases List.mem_append.mp hother with hother | hother
    · exact h.held other hother
    · cases List.mem_singleton.mp hother
      exact ⟨_, hread, rfl, hfull⟩
  answers answer hanswer bytes hbytes := by
    rcases List.mem_append.mp hanswer with hanswer | hanswer
    · exact h.answers answer hanswer bytes hbytes
    · cases List.mem_singleton.mp hanswer
      cases hbytes
      exact ⟨_, hread, hfull, length_load _ _ _⟩

theorem submitEntry (h : Filled file t) (hqueued : Queued t) {op : InFlight} (hread : t.reads[op.reply]? = some ⟨op.offset, op.buf.len⟩)
    (hfilled : Copied t.memory file op.buf.ptr op.offset op.filled) (hle : op.filled ≤ op.buf.len) :
    Filled file ({ t with nextId := t.nextId + 1 }.submitEntry t.nextId op) := by
  have hlater : Filled file { t with nextId := t.nextId + 1 } :=
    ⟨h.filled, h.resubmit, h.started, h.completed, h.held, h.answers⟩
  unfold State.submitEntry
  split
  · rename_i hlen
    have hfull : op.filled = op.buf.len := by omega
    exact hlater.send_ok hread (hfull ▸ hfilled)
  · have hinsert : insert t.nextId op t.inFlight = (t.nextId, op) :: t.inFlight :=
      insert_fresh fun entry hentry => (hqueued.keys_lt entry hentry).ne
    have hold : ∀ {id : Nat} {other : InFlight}, id ∈ t.ids → (id, other) ∈ (t.nextId, op) :: t.inFlight →
        (id, other) ∈ t.inFlight := by
      intro id other hid hmem
      rcases List.mem_cons.mp hmem with heq | hmem
      · exact absurd (congrArg Prod.fst heq) (hqueued.fresh id hid).ne
      · exact hmem
    constructor
    · simp only [hinsert]
      intro entry hentry
      rcases List.mem_cons.mp hentry with rfl | hentry
      · exact hfilled
      · exact h.filled entry hentry
    · exact h.resubmit
    · simp only [hinsert]
      intro work hwork other hother
      refine h.started work hwork other (hold ?_ hother)
      exact Queued.entry_mem_ids (List.mem_append_right _ (List.mem_append_right _ (List.mem_map_of_mem hwork)))
    · simp only [hinsert]
      intro done hdone other hother
      refine h.completed done hdone other (hold ?_ hother)
      simp only [State.ids, List.mem_append, List.mem_map]
      exact Or.inr (Or.inr (Or.inr ⟨done, hdone, rfl⟩))
    · exact h.held
    · exact h.answers

theorem reapOne (h : Filled file s) (hqueued : Queued s) (haccounted : Accounted s) {done : Cqe} {rest : List Cqe}
    (hcompletion : s.completion = done :: rest) {count : Nat} {resubmit : List InFlight}
    (hcontrol : s.control = .reap (count + 1) resubmit) :
    Filled file ({ s with completion := rest }.reapOne done count resubmit) := by
  have hdone : done ∈ s.completion := hcompletion ▸ List.mem_cons_self
  have hresubmit : ∀ op ∈ resubmit, Copied s.memory file op.buf.ptr op.offset op.filled := by
    have hresubmit := h.resubmit
    rw [hcontrol] at hresubmit
    exact hresubmit
  have htaken : ∀ others : List (Nat × InFlight), (∀ entry ∈ others, entry ∈ s.inFlight) →
      Filled file { s with completion := rest, inFlight := others, control := .reap count resubmit } := by
    intro others hothers
    refine h.mono rfl hothers (fun op hop => ?_) (fun _ hwork => Or.inl hwork)
      (fun other hother => hcompletion ▸ List.mem_cons_of_mem _ hother) (fun _ hbuf => hbuf) (fun _ hanswer => Or.inl hanswer)
      fun _ _ hplace => hplace
    rw [hcontrol]
    exact hop
  unfold State.reapOne
  cases hop : remove done.userData s.inFlight with
  | none =>
      simp only
      exact htaken _ fun entry hentry => hentry
  | some found =>
      obtain ⟨op, others⟩ := found
      have hperm := remove_perm hop
      have hmem : (done.userData, op) ∈ s.inFlight := hperm.mem_iff.mpr List.mem_cons_self
      have hothers := htaken others fun entry hentry => hperm.mem_iff.mpr (List.mem_cons_of_mem _ hentry)
      have hfilled : Copied s.memory file op.buf.ptr op.offset (op.filled + done.result.toNat) :=
        copied_add.mpr ⟨h.filled _ hmem, h.completed done hdone op hmem⟩
      have hreached := hqueued.reached done hdone op hmem
      have hshort : op.filled < op.buf.len := hqueued.short _ hmem
      have hread : s.reads[op.reply]? = some ⟨op.offset, op.buf.len⟩ := by
        refine haccounted.extents op.read (List.mem_append_right _ (List.mem_append_right _ ?_))
        exact List.mem_map.mpr ⟨_, hmem, rfl⟩
      simp only
      split
      · exact hothers.send_error _ _
      · split
        · exact hothers.send_error _ _
        · split
          · refine ⟨hothers.filled, fun other hother => ?_, hothers.started, hothers.completed, hothers.held, hothers.answers⟩
            rcases List.mem_append.mp hother with hother | hother
            · exact hresubmit other hother
            · cases List.mem_singleton.mp hother
              exact hfilled
          · rename_i hfull
            have hlen : op.filled + done.result.toNat = op.buf.len := by omega
            exact hothers.send_ok hread (hlen ▸ hfilled)

theorem finish (h : Filled file s) (hqueued : Queued s) {index : Nat} {work : Started} (hwork : s.started[index]? = some work)
    {result : Int} (hresult : result.toNat ≤ work.copied) : Filled file { s with
      started := s.started.eraseIdx index
      completion := s.completion ++ [⟨work.entry.userData, result⟩] } where
  filled := h.filled
  resubmit := h.resubmit
  started other hother := h.started other (List.mem_of_mem_eraseIdx hother)
  completed done hdone op hop := by
    rcases List.mem_append.mp hdone with hdone | hdone
    · exact h.completed done hdone op hop
    · cases List.mem_singleton.mp hdone
      have hmem := List.mem_of_getElem? hwork
      have hcopied := h.started work hmem op hop
      rw [hqueued.rest work.entry (List.mem_append_right _ (List.mem_append_right _ (List.mem_map_of_mem hmem))) op hop] at hcopied
      exact hcopied.take hresult
  held := h.held
  answers := h.answers

/-- Reads in flight under two ids are two reads. -/
theorem reply_ne (haccounted : Accounted s) {id id' : Nat} {op op' : InFlight} (hop : (id, op) ∈ s.inFlight)
    (hop' : (id', op') ∈ s.inFlight) (hne : id ≠ id') : op.reply ≠ op'.reply := by
  intro heq
  have hnodup : (s.inFlight.map fun entry => entry.2.reply).Nodup := by
    have hpending := (List.nodup_append.mp haccounted.nodup).1
    unfold State.pending at hpending
    rw [List.map_append, List.map_append, List.map_map] at hpending
    exact (List.nodup_append.mp (List.nodup_append.mp hpending).2.1).2.1
  exact hne (congrArg Prod.fst (List.inj_on_of_nodup_map hnodup hop hop' heq))

theorem resubmit_read {op : InFlight} (hop : op ∈ s.control.resubmit) : op.read ∈ s.control.reads := by
  cases hcontrol : s.control <;> rw [hcontrol] at hop
  case reap => exact List.mem_map_of_mem hop
  case again => exact List.mem_map_of_mem hop
  all_goals exact absurd hop List.not_mem_nil

theorem resubmit_ne (haccounted : Accounted s) {id : Nat} {op op' : InFlight} (hop : (id, op) ∈ s.inFlight)
    (hop' : op' ∈ s.control.resubmit) : op.reply ≠ op'.reply := by
  have hpending := (List.nodup_append.mp haccounted.nodup).1
  unfold State.pending at hpending
  rw [List.map_append, List.map_append, List.map_map] at hpending
  refine fun heq => (List.nodup_append.mp (List.nodup_append.mp hpending).2.1).2.2 op'.reply ?_ op.reply ?_ heq.symm
  · exact List.mem_map.mpr ⟨_, resubmit_read hop', rfl⟩
  · exact List.mem_map.mpr ⟨_, hop, rfl⟩

theorem held_ne (haccounted : Accounted s) {id : Nat} {op : InFlight} (hop : (id, op) ∈ s.inFlight) {buf : Nat × IoBuf}
    (hbuf : buf ∈ s.held) : op.reply ≠ buf.1 := by
  refine fun heq => (List.nodup_append.mp haccounted.nodup).2.2 op.reply ?_ buf.1 (haccounted.held buf hbuf) heq
  exact List.mem_map.mpr ⟨op.read, List.mem_append_right _ (List.mem_append_right _ (List.mem_map.mpr ⟨_, hop, rfl⟩)), rfl⟩

theorem started_ne (hqueued : Queued s) {index place : Nat} {work other : Started} (hwork : s.started[index]? = some work)
    (hother : s.started[place]? = some other) (hne : index ≠ place) : work.entry.userData ≠ other.entry.userData := by
  intro heq
  have hnodup : (s.started.map fun work => work.entry.userData).Nodup :=
    (List.nodup_append.mp (List.nodup_append.mp (List.nodup_append.mp hqueued.ids).2.1).2.1).1
  obtain ⟨hindex, rfl⟩ := List.getElem?_eq_some_iff.mp hwork
  obtain ⟨hplace, rfl⟩ := List.getElem?_eq_some_iff.mp hother
  have hindex' : index < (s.started.map fun work => work.entry.userData).length := by rwa [List.length_map]
  have hplace' : place < (s.started.map fun work => work.entry.userData).length := by rwa [List.length_map]
  have hget : (s.started.map fun work => work.entry.userData)[index] = (s.started.map fun work => work.entry.userData)[place] := by
    rw [List.getElem_map, List.getElem_map]
    exact heq
  exact hne (hnodup.getElem_inj_iff.mp hget)

theorem completed_ne (hqueued : Queued s) {work : Started} {done : Cqe} (hwork : work ∈ s.started) (hdone : done ∈ s.completion) :
    work.entry.userData ≠ done.userData :=
  (List.nodup_append.mp (List.nodup_append.mp (List.nodup_append.mp hqueued.ids).2.1).2.1).2.2 _
    (List.mem_map.mpr ⟨work, hwork, rfl⟩) _ (List.mem_map_of_mem hdone)

theorem copy (h : Filled file s) (hqueued : Queued s) (haccounted : Accounted s) (hseparate : Separate s) {index count : Nat}
    {work : Started} (hwork : s.started[index]? = some work) (hcount : work.copied + count ≤ work.entry.len) :
    Filled file { s with
      memory := store s.memory (work.entry.ptr + work.copied) (slice file (work.entry.offset + work.copied) count)
      started := s.started.set index { work with
        copied := work.copied + (slice file (work.entry.offset + work.copied) count).length } } := by
  let bytes := slice file (work.entry.offset + work.copied) count
  have hbytes : work.copied + bytes.length ≤ work.entry.len := by
    have hlen : bytes.length = _ := length_slice file (work.entry.offset + work.copied) count
    omega
  have hmem := List.mem_of_getElem? hwork
  have hentry : work.entry ∈ s.entries := List.mem_append_right _ (List.mem_append_right _ (List.mem_map_of_mem hmem))
  -- what is written is apart from a range of another read's buffer
  have hother : ∀ {owner : Nat × IoBuf} {start len : Nat}, owner ∈ s.owners →
      (∀ op, (work.entry.userData, op) ∈ s.inFlight → op.reply ≠ owner.1) → owner.2.ptr ≤ start →
      start + len ≤ owner.2.ptr + owner.2.len → Memory.Apart (work.entry.ptr + work.copied) bytes.length start len := by
    intro owner start len howner hne hstart hlen
    exact (hseparate.clear work.entry hentry owner howner hne).mono (Nat.le_add_right _ _) (by omega) hstart hlen
  have hpending : ∀ {id : Nat} {op : InFlight}, (id, op) ∈ s.inFlight → (op.reply, op.buf) ∈ s.owners := by
    intro id op hop
    refine List.mem_append_left _ (List.mem_map.mpr ⟨op.read, ?_, rfl⟩)
    exact List.mem_append_right _ (List.mem_append_right _ (List.mem_map.mpr ⟨_, hop, rfl⟩))
  constructor
  · rintro ⟨id, op⟩ hop
    refine (h.filled _ hop).store_apart ?_
    by_cases hid : id = work.entry.userData
    · subst hid
      have hrest := hqueued.rest work.entry hentry op hop
      have hptr : work.entry.ptr = op.buf.ptr + op.filled := congrArg Sqe.ptr hrest
      refine Or.inr ?_
      show op.buf.ptr + op.filled ≤ work.entry.ptr + work.copied
      omega
    · have hshort : op.filled < op.buf.len := hqueued.short _ hop
      refine hother (hpending hop) (fun live hlive => reply_ne haccounted hlive hop (Ne.symm hid)) (Nat.le_refl _) ?_
      show op.buf.ptr + op.filled ≤ op.buf.ptr + op.buf.len
      omega
  · intro op hop
    refine (h.resubmit op hop).store_apart ?_
    have hshort := hqueued.resubmit op hop
    have howner : (op.reply, op.buf) ∈ s.owners := List.mem_append_left _ (List.mem_map.mpr
        ⟨op.read, List.mem_append_right _ (List.mem_append_left _ (resubmit_read hop)), rfl⟩)
    refine hother howner (fun live hlive => resubmit_ne haccounted hlive hop) (Nat.le_refl _) ?_
    show op.buf.ptr + op.filled ≤ op.buf.ptr + op.buf.len
    omega
  · intro other hset op hop
    obtain ⟨place, hplace⟩ := List.mem_iff_getElem?.mp hset
    rw [List.getElem?_set] at hplace
    split at hplace
    · rw [if_pos (List.getElem?_eq_some_iff.mp hwork).1] at hplace
      cases hplace
      exact (h.started work hmem op hop).store_next count
    · rename_i hne
      have hstarted := List.mem_of_getElem? hplace
      have hrest := hqueued.rest other.entry (List.mem_append_right _ (List.mem_append_right _ (List.mem_map_of_mem hstarted))) op hop
      have hptr : other.entry.ptr = op.buf.ptr + op.filled := congrArg Sqe.ptr hrest
      have hlen : other.entry.len = (op.buf.len - op.filled) % 2 ^ 32 := congrArg Sqe.len hrest
      have hmod := Nat.mod_le (op.buf.len - op.filled) (2 ^ 32)
      have hcopied := hqueued.copied other hstarted
      have hshort : op.filled < op.buf.len := hqueued.short _ hop
      refine (h.started other hstarted op hop).store_apart ?_
      refine hother (hpending hop) (fun live hlive => reply_ne haccounted hlive hop ?_) ?_ ?_
      · exact started_ne hqueued hwork hplace hne
      · show op.buf.ptr ≤ other.entry.ptr
        omega
      · show other.entry.ptr + other.copied ≤ op.buf.ptr + op.buf.len
        omega
  · intro done hdone op hop
    refine (h.completed done hdone op hop).store_apart ?_
    have hreached := hqueued.reached done hdone op hop
    have hshort : op.filled < op.buf.len := hqueued.short _ hop
    refine hother (hpending hop) (fun live hlive => reply_ne haccounted hlive hop ?_) (Nat.le_add_right _ _) ?_
    · exact completed_ne hqueued hmem hdone
    · show op.buf.ptr + op.filled + done.result.toNat ≤ op.buf.ptr + op.buf.len
      omega
  · intro buf hbuf
    obtain ⟨extent, hextent, hlen, hcopied⟩ := h.held buf hbuf
    refine ⟨extent, hextent, hlen, hcopied.store_apart ?_⟩
    exact hother (List.mem_append_right _ hbuf) (fun live hlive => held_ne haccounted hlive hbuf) (Nat.le_refl _) (by omega)
  · exact h.answers

theorem step {event : Event} (h : Filled file s) (hqueued : Queued s) (haccounted : Accounted s) (hseparate : Separate s)
    (hstep : Move file s event u) : Filled file u := by
  have hnone : ∀ {control : Control} (requests : List (List ReadOp)), control.resubmit = [] →
      Filled file { s with control := control, requests := requests } := by
    intro control requests hresubmit
    refine h.of_control control requests fun op hop => ?_
    rw [hresubmit] at hop
    cases hop
  have htake : ∀ count, Filled file (s.take count) := by
    intro count
    refine h.mono rfl (fun _ hentry => hentry) (fun _ hop => hop) (fun work hwork => ?_) (fun _ hdone => hdone)
      (fun _ hbuf => hbuf) (fun _ hanswer => Or.inl hanswer) fun _ _ hplace => hplace
    rcases List.mem_append.mp hwork with hwork | hwork
    · exact Or.inl hwork
    · obtain ⟨entry, _, rfl⟩ := List.mem_map.mp hwork
      exact Or.inr rfl
  cases hstep with
  | call hopen hptrs hapart =>
      refine h.mono rfl (fun _ hentry => hentry) (fun _ hop => hop) (fun _ hwork => Or.inl hwork) (fun _ hdone => hdone)
        (fun _ hbuf => hbuf) (fun _ hanswer => Or.inl hanswer) fun place extent hplace => ?_
      rw [List.getElem?_append_left (List.getElem?_eq_some_iff.mp hplace).1]
      exact hplace
  | release reply =>
      exact h.mono rfl (fun _ hentry => hentry) (fun _ hop => hop) (fun _ hwork => Or.inl hwork) (fun _ hdone => hdone)
        (fun _ hbuf => (List.mem_filter.mp hbuf).1) (fun _ hanswer => Or.inl hanswer) fun _ _ hplace => hplace
  | close => exact ⟨h.filled, h.resubmit, h.started, h.completed, h.held, h.answers⟩
  | receive hcontrol hrequests => exact hnone _ rfl
  | stop hcontrol => exact hnone s.requests rfl
  | busy hcontrol => exact hnone s.requests rfl
  | @submit op ops hpushing hcontrol =>
      have hrest : Filled file { s with control := .scatter ops } := hnone s.requests rfl
      refine hrest.submitEntry ?_ ?_ (Copied.zero _ _ _ _) (Nat.zero_le _)
      · exact hqueued.of_control _ _ (by simp [Control.resubmit])
      · refine haccounted.extents op (List.mem_append_right _ (List.mem_append_left _ ?_))
        rw [hcontrol]
        exact List.mem_cons_self
  | submitted hcontrol hreads hresubmit => exact hnone s.requests hresubmit
  | push hpushing => exact ⟨h.filled, h.resubmit, h.started, h.completed, h.held, h.answers⟩
  | flush hpushing count => exact htake count
  | @flushFails entry op rest hpushing hop code =>
      refine Filled.send_error (s := { s with pushing := none, inFlight := rest }) ?_ _ _
      exact h.mono rfl (fun _ hentry => (remove_perm hop).mem_iff.mpr (List.mem_cons_of_mem _ hentry)) (fun _ hop => hop)
        (fun _ hwork => Or.inl hwork) (fun _ hdone => hdone) (fun _ hbuf => hbuf) (fun _ hanswer => Or.inl hanswer)
        fun _ _ hplace => hplace
  | forget hpushing hop code => exact ⟨h.filled, h.resubmit, h.started, h.completed, h.held, h.answers⟩
  | submitAndWait hcontrol count =>
      exact (htake count).of_control .woken s.requests fun _ hop => absurd hop List.not_mem_nil
  | submitAndWaitFails hcontrol code =>
      refine h.mono rfl (fun _ hentry => absurd hentry List.not_mem_nil) (fun _ hop => absurd hop List.not_mem_nil)
        (fun _ hwork => Or.inl hwork) (fun _ hdone => hdone) (fun _ hbuf => hbuf) (fun answer hanswer => ?_) fun _ _ hplace => hplace
      rcases List.mem_append.mp hanswer with hanswer | hanswer
      · exact Or.inl hanswer
      · obtain ⟨entry, _, rfl⟩ := List.mem_map.mp hanswer
        exact Or.inr ⟨_, rfl⟩
  | collect hcontrol => exact hnone s.requests rfl
  | @reaped resubmit hcontrol =>
      refine h.of_control (.again resubmit) s.requests fun op hop => ?_
      rw [hcontrol]
      exact hop
  | reap hcontrol hcompletion => exact h.reapOne hqueued haccounted hcompletion hcontrol
  | @resubmit op ops hpushing hcontrol =>
      have hmem : op ∈ s.control.resubmit := by
        rw [hcontrol]
        exact List.mem_cons_self
      have hothers : ∀ other ∈ ops, other ∈ s.control.resubmit := by
        intro other hother
        rw [hcontrol]
        exact List.mem_cons_of_mem _ hother
      refine (h.of_control (.again ops) s.requests hothers).submitEntry ?_ ?_ (h.resubmit op hmem) (hqueued.resubmit op hmem).le
      · exact hqueued.of_control _ _ fun other hother => hqueued.resubmit other (hothers other hother)
      · exact haccounted.extents op.read (List.mem_append_right _ (List.mem_append_left _ (resubmit_read hmem)))
  | resubmitted hcontrol => exact hnone s.requests rfl
  | copy hwork hcount => exact h.copy hqueued haccounted hseparate hwork hcount
  | finish hwork hresult => exact h.finish hqueued hwork hresult

theorem opened (file : List UInt8) (memory : Nat → UInt8) : Filled file (.opened memory) := by
  constructor <;> simp [State.opened, Control.resubmit]

end Filled

/-- What the callers may rely on. -/
structure Correct (file : List UInt8) (s : State) : Prop where
  /-- No read is answered twice, and what is answered is nowhere else. -/
  once : (s.answers.map Prod.fst ++ s.pending.map ReadOp.reply).Nodup
  kept : ∀ reply < s.reads.length, reply ∈ s.answers.map Prod.fst ∨ reply ∈ s.pending.map ReadOp.reply
  /-- What is in flight waits for the kernel, is with it, or has come back. -/
  queued : ∀ entry ∈ s.inFlight, entry.2.entry entry.1 ∈ s.entries ∨ ∃ done ∈ s.completion, done.userData = entry.1
  keys : (s.inFlight.map Prod.fst).Nodup
  ids : s.ids.Nodup
  bytes : ∀ reply bytes, (reply, .ok bytes) ∈ s.answers → ∃ extent, s.reads[reply]? = some extent ∧
    bytes = slice file extent.offset extent.len ∧ bytes.length = extent.len
  /-- A buffer keeps its bytes until its caller drops it. -/
  held : ∀ reply buf, (reply, buf) ∈ s.held → ∃ extent, s.reads[reply]? = some extent ∧
    load s.memory buf.ptr buf.len = slice file extent.offset extent.len
  ordered : ∀ call ∈ s.calls, ∀ out, submitReads s.answers call = some (.ok out) →
    out = call.map fun read => slice file read.1.offset read.1.len
  pastEnd : ∀ reply answer extent, (reply, answer) ∈ s.answers → s.reads[reply]? = some extent → 0 < extent.len →
    file.length < extent.stop → ∃ error, answer = .error error

/-- The invariants of the reactor, with what they say of the buffers. -/
structure Whole (file : List UInt8) (s : State) : Prop where
  queued : Queued s
  accounted : Accounted s
  separate : Separate s
  filled : Filled file s

namespace Whole

variable {file : List UInt8} {s u : State}

theorem step {event : Event} (h : Whole file s) (hstep : Uring.step file s event = some u) (hclear : Clear s event) : Whole file u :=
  have hmove := step_cases hstep
  ⟨h.queued.step hmove, h.accounted.step h.queued hmove, h.separate.step h.queued h.accounted hmove hclear,
    h.filled.step h.queued h.accounted h.separate hmove⟩

theorem opened (file : List UInt8) (memory : Nat → UInt8) : Whole file (.opened memory) :=
  ⟨.opened memory, .opened memory, by constructor <;> simp [State.opened, State.owners, State.pending, Control.reads],
    .opened file memory⟩

theorem submitReads_eq (h : Whole file s) {call : List (Extent × Nat)} (hcall : ∀ read ∈ call, s.reads[read.2]? = some read.1)
    {out : List (List UInt8)} (hout : submitReads s.answers call = some (.ok out)) :
    out = call.map fun read => slice file read.1.offset read.1.len := by
  induction call generalizing out with
  | nil =>
      cases hout
      rfl
  | cons read call ih =>
      simp only [submitReads] at hout
      split at hout
      · cases hout
      · cases hout
      · rename_i buf hlookup
        obtain ⟨result, hresult, hmap⟩ := Option.map_eq_some_iff.mp hout
        cases result with
        | error error => cases hmap
        | ok rest =>
            cases hmap
            have hanswer : (read.2, .ok buf) ∈ s.answers := by
              obtain ⟨before, after, hanswers, _⟩ := List.lookup_eq_some_iff.mp hlookup
              rw [hanswers]
              exact List.mem_append_right _ List.mem_cons_self
            obtain ⟨extent, hextent, hbuf, _⟩ := h.filled.answers _ hanswer buf rfl
            rw [hcall read List.mem_cons_self] at hextent
            cases hextent
            rw [List.map_cons, hbuf, ih (fun other hother => hcall other (List.mem_cons_of_mem _ hother)) hresult]

theorem correct (h : Whole file s) : Correct file s where
  once := List.perm_append_comm.nodup_iff.mp h.accounted.nodup
  kept reply hreply := by
    have hasked := h.accounted.asked.mem_iff.mpr (List.mem_range.mpr hreply)
    exact (List.mem_append.mp hasked).symm
  queued := by
    rintro ⟨id, op⟩ hop
    have hknown := h.queued.known _ hop
    have hids : id ∈ s.entries.map Sqe.userData ∨ ∃ done ∈ s.completion, done.userData = id := by
      simp only [State.ids, State.entries, State.unfinished, List.map_append, List.map_map, Function.comp_def, List.mem_append,
        List.mem_map, or_assoc] at hknown ⊢
      exact hknown
    refine hids.imp_left fun hid => ?_
    obtain ⟨entry, hentry, rfl⟩ := List.mem_map.mp hid
    have hrest : entry = op.entry entry.userData := h.queued.rest entry hentry op hop
    rwa [hrest] at hentry
  keys := h.queued.keys
  ids := h.queued.ids
  bytes reply bytes hbytes := h.filled.answers _ hbytes bytes rfl
  held reply buf hbuf := by
    obtain ⟨extent, hextent, hlen, hcopied⟩ := h.filled.held _ hbuf
    refine ⟨extent, hextent, ?_⟩
    show load s.memory buf.ptr buf.len = slice file extent.offset extent.len
    have hlen : extent.len = buf.len := hlen
    unfold Copied at hcopied
    rw [hlen] at hcopied ⊢
    exact hcopied
  ordered call hcall out hout := h.submitReads_eq (h.accounted.calls call hcall) hout
  pastEnd reply answer extent hanswer hextent hlen hend := by
    cases answer with
    | error error => exact ⟨error, rfl⟩
    | ok bytes =>
        obtain ⟨found, hfound, hbytes, hlength⟩ := h.filled.answers _ hanswer bytes rfl
        rw [hextent] at hfound
        cases hfound
        rw [hbytes, length_slice] at hlength
        unfold Extent.stop at hend
        omega

end Whole

/-- Runs in which new buffers always lie clear of what the ring may still write to. -/
def ClearRun (file : List UInt8) : State → List Event → Prop
  | _, [] => True
  | s, event :: events => Clear s event ∧ ∀ t, step file s event = some t → ClearRun file t events

theorem Whole.run {file : List UInt8} {s u : State} {events : List Event} (h : Whole file s) (hrun : run file s events = some u)
    (hclear : ClearRun file s events) : Whole file u := by
  induction events generalizing s with
  | nil =>
      cases hrun
      exact h
  | cons event events ih =>
      obtain ⟨t, hstep, hrest⟩ := Option.bind_eq_some_iff.mp hrun
      exact ih (h.step hstep hclear.1) hrest (hclear.2 t hstep)

/-- The reactor answers every read once and correctly, as long as no buffer is allocated over memory that the ring may
still write to. -/
theorem reactor_answers_correctly {file : List UInt8} {memory : Nat → UInt8} {events : List Event} {s : State}
    (hrun : run file (.opened memory) events = some s) (hclear : ClearRun file (.opened memory) events) : Correct file s :=
  ((Whole.opened file memory).run hrun hclear).correct

/-- The read of an entry that has not been completed is in flight. -/
def Live (s : State) : Prop := ∀ entry ∈ s.entries, ∃ op, (entry.userData, op) ∈ s.inFlight

theorem Live.step {file : List UInt8} {s u : State} {event : Event} (h : Live s) (hqueued : Queued s) (hstep : Move file s event u)
    (hfails : ∀ code, event ≠ .submitAndWaitFails code) : Live u := by
  intro entry hentry
  rcases hqueued.entries_step hstep hfails hentry with ⟨hbefore, hkept⟩ | ⟨op, _, hop, _⟩
  · obtain ⟨op, hop⟩ := h entry hbefore
    exact ⟨op, hkept op hop⟩
  · exact ⟨op, hop⟩

/-- The allocator gives out nothing that a read in flight still owns. -/
theorem Live.clear {file : List UInt8} {s u : State} {event : Event} (h : Live s) (hqueued : Queued s)
    (hstep : Move file s event u) : Clear s event := by
  rintro extents ptrs rfl op hop entry hentry
  cases hstep with
  | call hopen hptrs hapart =>
      obtain ⟨read, hread⟩ := h entry hentry
      rw [hqueued.rest entry hentry read hread]
      refine Separate.entry_apart (hqueued.short _ hread) ?_
      refine Memory.Apart.symm ((List.pairwise_append.mp hapart).2.2 _ (List.mem_map_of_mem hop) _ ?_)
      refine List.mem_append_left _ (List.mem_map.mpr ⟨read.read, ?_, rfl⟩)
      exact List.mem_append_right _ (List.mem_append_right _ (List.mem_map.mpr ⟨_, hread, rfl⟩))

/-- Only a wait that fails leaves the ring with memory that has no owner. -/
theorem clearRun_of_no_failure {file : List UInt8} {s : State} {events : List Event} (hqueued : Queued s) (hlive : Live s)
    {u : State} (hrun : run file s events = some u) (hfails : ∀ event ∈ events, ∀ code, event ≠ .submitAndWaitFails code) :
    ClearRun file s events := by
  induction events generalizing s with
  | nil => trivial
  | cons event events ih =>
      obtain ⟨t, hstep, hrest⟩ := Option.bind_eq_some_iff.mp hrun
      have hmove := step_cases hstep
      refine ⟨hlive.clear hqueued hmove, fun v hv => ?_⟩
      rw [hstep] at hv
      cases hv
      exact ih (hqueued.step hmove) (hlive.step hqueued hmove (hfails event List.mem_cons_self)) hrest
        fun other hother => hfails other (List.mem_cons_of_mem _ hother)

/-- Three bytes at the end of a file of five, with one byte of them read first, and an empty range. -/
def shortReadEvents : List Event :=
  [.call [⟨2, 3⟩, ⟨1, 0⟩] [100, 200], .receive, .submit, .push, .submit, .submit, .submitAndWait 1, .copy 0 1, .finish 0 1,
    .collect, .reap, .reap, .resubmit, .push, .resubmit, .receive, .submitAndWait 1, .copy 0 2, .finish 0 2, .collect, .reap]

theorem reactor_answers_short_read : ∃ s, run [1, 2, 3, 4, 5] (.opened fun _ => 0) shortReadEvents = some s ∧
    s.answers = [(1, .ok []), (0, .ok [3, 4, 5])] ∧ Correct [1, 2, 3, 4, 5] s := by
  have hrun : (run [1, 2, 3, 4, 5] (.opened fun _ => 0) shortReadEvents).map State.answers =
      some [(1, .ok []), (0, .ok [3, 4, 5])] := by decide +kernel
  obtain ⟨s, hs, hanswers⟩ := Option.map_eq_some_iff.mp hrun
  refine ⟨s, hs, hanswers, reactor_answers_correctly hs ?_⟩
  refine clearRun_of_no_failure (.opened _) (fun entry hentry => ?_) hs ?_
  · cases hentry
  · simp [shortReadEvents]

section Failure

/-- Two reads of a file of three bytes. The first is in the queue when the ring fails; its buffer goes back to the
allocator, and the second read gets the same memory. The kernel carries out both. -/
def staleEvents : List Event :=
  [.call [⟨0, 1⟩] [100], .receive, .submit, .push, .submit, .submitAndWaitFails 11,
    .call [⟨2, 1⟩] [100], .receive, .submit, .push, .submit, .submitAndWait 2,
    .copy 1 1, .finish 1 1, .copy 0 1, .collect, .reap]

theorem stale_read_overwrites_buffer : ∃ s, run [1, 2, 3] (.opened fun _ => 0) staleEvents = some s ∧ ¬ Correct [1, 2, 3] s := by
  have hrun : (run [1, 2, 3] (.opened fun _ => 0) staleEvents).map (fun s => (s.answers, s.reads)) =
      some ([(0, .error (.rawIo 11)), (1, .ok [1])], [⟨0, 1⟩, ⟨2, 1⟩]) := by decide +kernel
  obtain ⟨s, hs, hanswers⟩ := Option.map_eq_some_iff.mp hrun
  refine ⟨s, hs, fun hcorrect => ?_⟩
  have hreads : s.reads = [⟨0, 1⟩, ⟨2, 1⟩] := congrArg Prod.snd hanswers
  have hanswers : s.answers = [(0, .error (.rawIo 11)), (1, .ok [1])] := congrArg Prod.fst hanswers
  obtain ⟨extent, hextent, hbytes, _⟩ := hcorrect.bytes 1 [1] (by rw [hanswers]; exact List.mem_cons_of_mem _ List.mem_cons_self)
  rw [hreads] at hextent
  cases hextent
  exact absurd hbytes (by decide)

end Failure

end LocalTables.Uring
