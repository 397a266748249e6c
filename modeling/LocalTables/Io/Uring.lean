import LocalTables.Layout.Extent
import LocalTables.Lib.Memory

/-! The reads of `io/uring.rs`: callers that ask for ranges of the file, the reactor that hands them to the kernel
and answers them, and the kernel, which fills buffers through the addresses it was given. The steps of the three come
in any order. -/

namespace LocalTables.Uring

/-- Entries in the ring. -/
def ringEntries : Nat := 256

/-- A buffer: its memory is its owner's until the owner drops it. -/
structure IoBuf where
  ptr : Nat
  len : Nat
  deriving DecidableEq, Repr

def IoBuf.Apart (a b : IoBuf) : Prop := Memory.Apart a.ptr a.len b.ptr b.len

instance (a b : IoBuf) : Decidable (a.Apart b) := inferInstanceAs (Decidable (Memory.Apart _ _ _ _))

/-- One read waiting to be submitted. The reply channel is named by the number of the read. -/
structure ReadOp where
  offset : Nat
  buf : IoBuf
  reply : Nat
  deriving DecidableEq, Repr

/-- A read that has been submitted and not yet completed. -/
structure InFlight where
  buf : IoBuf
  reply : Nat
  offset : Nat
  filled : Nat
  deriving DecidableEq, Repr

/-- An entry of the submission queue: `opcode::Read`. -/
structure Sqe where
  ptr : Nat
  len : Nat
  offset : Nat
  userData : Nat
  deriving DecidableEq, Repr

/-- An entry the kernel works on, and the bytes it has written so far. -/
structure Started where
  entry : Sqe
  copied : Nat
  deriving DecidableEq, Repr

/-- An entry of the completion queue. -/
structure Cqe where
  userData : Nat
  result : Int
  deriving DecidableEq, Repr

inductive ReadError where
  | rawIo (code : Int)
  | corrupt (message : String)
  deriving DecidableEq, Repr

/-- Where the reactor thread is. -/
inductive Control where
  /-- At the top of its loop. -/
  | top
  /-- In a request, with the reads that are still to be submitted. -/
  | scatter (ops : List ReadOp)
  /-- Before it waits for a completion, and after. -/
  | wait
  | woken
  /-- Among the completions: how many it has still to take, and what it has to submit again. -/
  | reap (count : Nat) (resubmit : List InFlight)
  | again (resubmit : List InFlight)
  | returned
  deriving DecidableEq, Repr

/-- The process and the kernel. -/
structure State where
  memory : Nat → UInt8
  /-- Every sender of the channel is gone. -/
  closed : Bool
  requests : List (List ReadOp)
  control : Control
  /-- The entry `submit_entry` is putting into the submission queue. -/
  pushing : Option Sqe
  nextId : Nat
  inFlight : List (Nat × InFlight)
  submission : List Sqe
  started : List Started
  completion : List Cqe
  /-- The extents asked for: the number of a read is its place here. -/
  reads : List Extent
  /-- The calls of `submit_reads`: their extents, each with its reply channel. -/
  calls : List (List (Extent × Nat))
  /-- What was sent, with the contents of the buffer as it was sent. -/
  answers : List (Nat × Except ReadError (List UInt8))
  /-- The buffers the callers got and have not dropped. -/
  held : List (Nat × IoBuf)

/-- A ring that was just opened. -/
def State.opened (memory : Nat → UInt8) : State :=
  ⟨memory, false, [], .top, none, 0, [], [], [], [], [], [], [], []⟩

/-- `HashMap::remove`. -/
def remove (id : Nat) : List (Nat × InFlight) → Option (InFlight × List (Nat × InFlight))
  | [] => none
  | (key, op) :: rest =>
      if key = id then some (op, rest) else (remove id rest).map fun found => (found.1, (key, op) :: found.2)

/-- `HashMap::insert`. -/
def insert (id : Nat) (op : InFlight) (inFlight : List (Nat × InFlight)) : List (Nat × InFlight) :=
  (id, op) :: ((remove id inFlight).elim inFlight Prod.snd)

/-- The entry that reads what is missing of a read. -/
def InFlight.entry (op : InFlight) (id : Nat) : Sqe :=
  ⟨op.buf.ptr + op.filled, (op.buf.len - op.filled) % 2 ^ 32, op.offset + op.filled, id⟩

/-- The read that is in flight. -/
def InFlight.read (op : InFlight) : ReadOp := ⟨op.offset, op.buf, op.reply⟩

/-- The reads the reactor has in its hands. -/
def Control.reads : Control → List ReadOp
  | .scatter ops => ops
  | .reap _ resubmit => resubmit.map InFlight.read
  | .again resubmit => resubmit.map InFlight.read
  | .top => []
  | .wait => []
  | .woken => []
  | .returned => []

namespace State

/-- The reads that have not been answered. -/
def pending (s : State) : List ReadOp := s.requests.flatten ++ (s.control.reads ++ s.inFlight.map fun op => op.2.read)

/-- The buffers that have an owner. -/
def owned (s : State) : List IoBuf := s.pending.map ReadOp.buf ++ s.held.map Prod.snd

/-- The entries through which the kernel may still write. -/
def unfinished (s : State) : List Sqe := s.submission ++ s.started.map Started.entry

/-- A reply. A buffer is the caller's from now on; the buffer of a failed read is dropped. -/
def send (s : State) (reply : Nat) : Except ReadError IoBuf → State
  | .ok buf => { s with
      answers := s.answers ++ [(reply, .ok (Memory.load s.memory buf.ptr buf.len))]
      held := s.held ++ [(reply, buf)] }
  | .error error => { s with answers := s.answers ++ [(reply, .error error)] }

def submitEntry (s : State) (id : Nat) (op : InFlight) : State :=
  if op.buf.len - op.filled = 0 then s.send op.reply (.ok op.buf)
  else { s with inFlight := insert id op s.inFlight, pushing := some (op.entry id) }

/-- Queue one whole read. -/
def submit (s : State) (id : Nat) (op : ReadOp) : State := s.submitEntry id ⟨op.buf, op.reply, op.offset, 0⟩

/-- Queue the rest of a read the kernel returned short. -/
def submitPartial (s : State) (id : Nat) (op : InFlight) (offset filled : Nat) : State :=
  s.submitEntry id { op with offset := offset - filled }

/-- Report a ring-level failure to everything waiting on it. -/
def failAll (s : State) (code : Int) : State :=
  { s with
    inFlight := []
    answers := s.answers ++ s.inFlight.map fun op => (op.2.reply, .error (.rawIo code)) }

/-- The first entries of the submission queue go to the kernel. -/
def take (s : State) (count : Nat) : State :=
  { s with
    submission := s.submission.drop count
    started := s.started ++ (s.submission.take count).map fun entry => ⟨entry, 0⟩ }

/-- One completion, with as many left to take, and the reads found short before it. -/
def reapOne (s : State) (completion : Cqe) (count : Nat) (resubmit : List InFlight) : State :=
  match remove completion.userData s.inFlight with
  | none => { s with control := .reap count resubmit }
  | some (op, rest) =>
      let s := { s with inFlight := rest, control := .reap count resubmit }
      if completion.result < 0 then s.send op.reply (.error (.rawIo (-completion.result)))
      else
        let read := completion.result.toNat
        let op := { op with filled := op.filled + read }
        if read = 0 ∧ op.filled < op.buf.len then
          s.send op.reply (.error (.corrupt
            s!"read past the end of the file: {op.filled} of {op.buf.len} bytes"))
        else if op.filled < op.buf.len then { s with control := .reap count (resubmit ++ [op]) }
        else s.send op.reply (.ok op.buf)

end State

/-- What can happen next: the callers, the reactor thread, the kernel. -/
inductive Event where
  /-- A call of `submit_reads`, and where its buffers are allocated. -/
  | call (extents : List Extent) (ptrs : List Nat)
  /-- A caller drops the buffer of a read. -/
  | release (reply : Nat)
  /-- The handle is dropped. -/
  | close
  | receive
  | submit
  | push
  /-- The queue is full: `ring.submit` hands over so many entries, or fails. -/
  | flush (count : Nat)
  | flushFails (code : Int)
  | submitAndWait (count : Nat)
  | submitAndWaitFails (code : Int)
  /-- `ring.completion` looks at the queue. -/
  | collect
  | reap
  | resubmit
  /-- The kernel writes so many more bytes of the entry with this index, or completes it. -/
  | copy (index count : Nat)
  | finish (index : Nat) (result : Int)
  deriving DecidableEq, Repr

/-- The reads of one call, numbered from `first` on. -/
def readOps : Nat → List Extent → List Nat → List ReadOp
  | first, extent :: extents, ptr :: ptrs => ⟨extent.offset, ⟨ptr, extent.len⟩, first⟩ :: readOps (first + 1) extents ptrs
  | _, [], _ => []
  | _, _ :: _, [] => []

/-- One step. The allocator gives out memory that has no owner, and the kernel reports no more bytes than it wrote. -/
def step (file : List UInt8) (s : State) : Event → Option State
  | .call extents ptrs =>
      let ops := readOps s.reads.length extents ptrs
      if s.closed = false ∧ ptrs.length = extents.length ∧ (ops.map ReadOp.buf ++ s.owned).Pairwise IoBuf.Apart then
        some { s with
          requests := if extents.isEmpty then s.requests else s.requests ++ [ops]
          reads := s.reads ++ extents
          calls := s.calls ++ [extents.zipIdx s.reads.length] }
      else none
  | .release reply => some { s with held := s.held.filter fun buf => buf.1 != reply }
  | .close => some { s with closed := true }
  | .receive =>
      match s.pushing, s.control, s.requests with
      | none, .top, ops :: requests => some { s with requests := requests, control := .scatter ops }
      | none, .top, [] =>
          if s.inFlight.isEmpty then if s.closed then some { s with control := .returned } else none
          else some { s with control := .wait }
      | _, _, _ => none
  | .submit =>
      match s.pushing, s.control with
      | none, .scatter (op :: ops) =>
          some ({ s with nextId := s.nextId + 1, control := .scatter ops }.submit s.nextId op)
      | none, .scatter [] => some { s with control := if s.inFlight.isEmpty then .top else .wait }
      | _, _ => none
  | .push =>
      match s.pushing with
      | some entry =>
          if s.submission.length < ringEntries then some { s with pushing := none, submission := s.submission ++ [entry] }
          else none
      | none => none
  | .flush count => if s.pushing.isSome ∧ s.submission.length = ringEntries then some (s.take count) else none
  | .flushFails code =>
      match s.pushing with
      | some entry =>
          if s.submission.length = ringEntries then
            match remove entry.userData s.inFlight with
            | some (op, rest) => some ({ s with pushing := none, inFlight := rest }.send op.reply (.error (.rawIo code)))
            | none => some { s with pushing := none }
          else none
      | none => none
  | .submitAndWait count =>
      match s.pushing, s.control with
      | none, .wait => some { s.take count with control := .woken }
      | _, _ => none
  | .submitAndWaitFails code =>
      match s.pushing, s.control with
      | none, .wait => some { s.failAll code with control := .top }
      | _, _ => none
  | .collect =>
      match s.control with
      | .woken => some { s with control := .reap s.completion.length [] }
      | _ => none
  | .reap =>
      match s.control, s.completion with
      | .reap 0 resubmit, _ => some { s with control := .again resubmit }
      | .reap (count + 1) resubmit, completion :: rest =>
          some ({ s with completion := rest }.reapOne completion count resubmit)
      | _, _ => none
  | .resubmit =>
      match s.pushing, s.control with
      | none, .again (op :: ops) =>
          some ({ s with nextId := s.nextId + 1, control := .again ops }.submitPartial s.nextId op
            (op.offset + op.filled) op.filled)
      | none, .again [] => some { s with control := .top }
      | _, _ => none
  | .copy index count =>
      match s.started[index]? with
      | some work =>
          if work.copied + count ≤ work.entry.len then
            let bytes := Memory.slice file (work.entry.offset + work.copied) count
            some { s with
              memory := Memory.store s.memory (work.entry.ptr + work.copied) bytes
              started := s.started.set index { work with copied := work.copied + bytes.length } }
          else none
      | none => none
  | .finish index result =>
      match s.started[index]? with
      | some work =>
          if result.toNat ≤ work.copied then
            some { s with
              started := s.started.eraseIdx index
              completion := s.completion ++ [⟨work.entry.userData, result⟩] }
          else none
      | none => none

/-- What happened, one thing after the other. -/
def run (file : List UInt8) : State → List Event → Option State
  | s, [] => some s
  | s, event :: events => (step file s event).bind fun t => run file t events

/-- What a call of `submit_reads` returns: the buffers of its reads, or the first error. Nothing while it waits. -/
def submitReads (answers : List (Nat × Except ReadError (List UInt8))) :
    List (Extent × Nat) → Option (Except ReadError (List (List UInt8)))
  | [] => some (.ok [])
  | read :: reads =>
      match answers.lookup read.2 with
      | none => none
      | some (.error error) => some (.error error)
      | some (.ok buf) => (submitReads answers reads).map fun out => out.map (buf :: ·)

end LocalTables.Uring
