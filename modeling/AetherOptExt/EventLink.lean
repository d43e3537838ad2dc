import AetherOptExt.Kernel
import AetherOptExt.Lib.LittleEndian
import AetherOptExt.Lib.Simulation

/-! # The way of an event from the kernel to the daemon (`bpf.rs`)

A hook writes the bytes of its `ProcEvent` into the ring buffer `EVENTS`, if there is room.  A
thread of the daemon, `ebpf_reader`, waits with `epoll_wait` on the ring and on an eventfd; it
takes the records out of the ring, reads each as an `EbpfProcEvent` and sends it through an
`mpsc` channel to the main thread, which dispatches it.  The main thread drops its context when
the channel is disconnected or when it unwinds: it writes the eventfd, joins the reader and
closes the eventfd, and only then are the receiver and the programs dropped.

The state has the two threads, the ring, the channel and the descriptors; an action is one
step of one thread, or a submission of the kernel, so a run is any interleaving.  What the
kernel answers (room in the ring, the results of `epoll_create1`, `epoll_ctl` and `epoll_wait`)
is part of the action.  Each event carries a tag of any type, which nothing reads.

`submitted`, `accepted` and `dispatched` are history variables: what the hooks wrote, what the
ring had room for, and what the main thread dispatched. -/

namespace AetherOptExt

open LittleEndian

/-! ### The record -/

/-- The bytes of a `ProcEvent`, which is `repr(C)`. -/
def ProcEvent.bytes (ev : ProcEvent) : List UInt8 :=
  ofWord ev.pid ++ (ofWord ev.tid ++ (ev.comm.bytes ++ ofWord ev.eventType))

/-- `size_of::<EbpfProcEvent>()`. -/
abbrev procEventSize : ℕ := 28

/-- The length test of `ebpf_reader` and its `read_unaligned`. -/
def readEvent (bytes : List UInt8) : Option ProcEvent :=
  if h : procEventSize ≤ bytes.length then
    some { pid := word 0 bytes
           tid := word 4 bytes
           comm := ⟨(bytes.drop 8).take 16, by have : 28 ≤ bytes.length := h; simp; omega⟩
           eventType := word 24 bytes }
  else none

theorem ProcEvent.length_bytes (ev : ProcEvent) : ev.bytes.length = procEventSize := by
  simp [bytes, ev.comm.size]

/-- What a hook wrote is what is read, whatever follows it. -/
theorem readEvent_append (ev : ProcEvent) (rest : List UInt8) : readEvent (ev.bytes ++ rest) = some ev := by
  have hlen : procEventSize ≤ (ev.bytes ++ rest).length := by simp [ev.length_bytes]
  have hpid : word 0 (ev.bytes ++ rest) = ev.pid := by
    simpa [ProcEvent.bytes] using
      word_append [] ev.pid (ofWord ev.tid ++ (ev.comm.bytes ++ ofWord ev.eventType) ++ rest) rfl
  have htid : word 4 (ev.bytes ++ rest) = ev.tid := by
    simpa [ProcEvent.bytes] using
      word_append (ofWord ev.pid) ev.tid (ev.comm.bytes ++ ofWord ev.eventType ++ rest) (length_ofWord ev.pid)
  have hcomm : ((ev.bytes ++ rest).drop 8).take 16 = ev.comm.bytes := by
    have hfront : (ofWord ev.pid ++ ofWord ev.tid).length = 8 := by simp
    have hsplit : ev.bytes ++ rest =
        (ofWord ev.pid ++ ofWord ev.tid) ++ (ev.comm.bytes ++ (ofWord ev.eventType ++ rest)) := by
      simp [ProcEvent.bytes]
    rw [hsplit, ← hfront, List.drop_left, List.take_left' ev.comm.size]
  have htype : word 24 (ev.bytes ++ rest) = ev.eventType := by
    simpa [ProcEvent.bytes] using
      word_append (ofWord ev.pid ++ (ofWord ev.tid ++ ev.comm.bytes)) ev.eventType rest (by simp [ev.comm.size])
  simp only [readEvent, dif_pos hlen, hpid, htid, hcomm, htype]

theorem readEvent_bytes (ev : ProcEvent) : readEvent ev.bytes = some ev := by
  simpa using readEvent_append ev []

/-- A record is read as `ev` exactly when it begins with the bytes of `ev`. -/
theorem readEvent_eq_some_iff (bytes : List UInt8) (ev : ProcEvent) :
    readEvent bytes = some ev ↔ ev.bytes <+: bytes := by
  constructor
  · intro h
    unfold readEvent at h
    split_ifs at h with hlen
    have hlen : 28 ≤ bytes.length := hlen
    obtain rfl := Option.some.inj h
    refine List.prefix_iff_eq_take.mpr ?_
    rw [ProcEvent.length_bytes]
    simp only [ProcEvent.bytes, ofWord_word 0 bytes (by omega), ofWord_word 4 bytes (by omega),
      ofWord_word 24 bytes (by omega)]
    have h₁ : bytes.take 28 = bytes.take 4 ++ (bytes.drop 4).take 24 := List.take_add (i := 4) (j := 24)
    have h₂ : (bytes.drop 4).take 24 = (bytes.drop 4).take 4 ++ (bytes.drop 8).take 20 := by
      simpa using List.take_add (l := bytes.drop 4) (i := 4) (j := 20)
    have h₃ : (bytes.drop 8).take 20 = (bytes.drop 8).take 16 ++ (bytes.drop 24).take 4 := by
      simpa using List.take_add (l := bytes.drop 8) (i := 16) (j := 4)
    rw [h₁, h₂, h₃, List.drop_zero]
  · rintro ⟨rest, rfl⟩
    exact readEvent_append ev rest

/-! ### The reader, the channel and the context -/

variable {τ : Type}

/-- Where `ebpf_reader` stands: before its first system call, at `epoll_wait`, in the inner
loop, with an item taken out of the ring, and after its return. -/
inductive Reader (τ : Type) where
  | starting
  | waiting
  | draining
  | holding (item : ProcEvent × τ)
  | stopped

/-- The item the reader is about to send. -/
def Reader.held : Reader τ → List (ProcEvent × τ)
  | holding item => [item]
  | _ => []

/-- The reader is in its loop. -/
def Reader.looping : Reader τ → Bool
  | starting => false
  | stopped => false
  | _ => true

/-- The `BpfCtx` of the main thread: in use, in its `drop` before the join has returned, and gone. -/
inductive CtxState where
  | active
  | dropping
  | dropped
deriving DecidableEq

/-- What `epoll_wait` returns: a negative number, zero, or descriptors, the ring's among them or not. -/
inductive EpollAnswer where
  | error (eintr : Bool)
  | empty
  | ready (ring : Bool)

structure Link (τ : Type) where
  ring : List (List UInt8 × τ)
  reader : Reader τ
  epfd : Bool
  channel : List (ProcEvent × τ)
  ctx : CtxState
  wakeup : Bool
  wakeupFd : Bool
  submitted : List (ProcEvent × τ)
  accepted : List (ProcEvent × τ)
  dispatched : List (ProcEvent × τ)

inductive LinkAction (τ : Type) where
  | submit (ev : ProcEvent) (tag : τ) (room : Bool)
  | setup (create addRing addWakeup : Bool)
  | wait (answer : EpollAnswer)
  | next
  | send
  | recv
  | disconnected
  | unwind
  | join

/-- The main thread unwinds. -/
def LinkAction.isUnwind : LinkAction τ → Bool
  | unwind => true
  | _ => false

namespace Link

/-- `submit_event`: without room nothing is written. -/
def submit (l : Link τ) (ev : ProcEvent) (tag : τ) (room : Bool) : Link τ :=
  { l with
    submitted := l.submitted ++ [(ev, tag)]
    accepted := if room then l.accepted ++ [(ev, tag)] else l.accepted
    ring := if room then l.ring ++ [(ev.bytes, tag)] else l.ring }

/-- The reader leaves its loop, closes `epfd` and returns. -/
def exitLoop (l : Link τ) : Link τ := { l with reader := .stopped, epfd := false }

/-- The reader's calls before its loop. -/
def setup (l : Link τ) (create addRing addWakeup : Bool) : Link τ :=
  if !create then { l with reader := .stopped }
  else if !addRing then { l with epfd := true }.exitLoop
  else if !addWakeup then { l with epfd := true }.exitLoop
  else { l with epfd := true, reader := .waiting }

/-- `epoll_wait` and what follows up to the inner loop.  A written eventfd is always among the
descriptors returned; the wakeup has precedence over the ring. -/
def wait (l : Link τ) : EpollAnswer → Option (Link τ)
  | .error eintr => if eintr then some l else some l.exitLoop
  | .empty => some l.exitLoop
  | .ready ring =>
      if l.wakeup then some l.exitLoop else if ring then some { l with reader := .draining } else none

/-- `ring_buf.next()` and the reading of the record; a short record is skipped. -/
def next (l : Link τ) : Link τ :=
  match l.ring with
  | [] => { l with reader := .waiting }
  | (bytes, tag) :: ring =>
      match readEvent bytes with
      | some ev => { l with ring := ring, reader := .holding (ev, tag) }
      | none => { l with ring := ring }

/-- `tx.send`, which fails when the receiver is gone. -/
def send (l : Link τ) (item : ProcEvent × τ) : Link τ :=
  if l.ctx = .dropped then l.exitLoop else { l with channel := l.channel ++ [item], reader := .draining }

/-- `BpfCtx::drop` up to the join. -/
def beginDrop (l : Link τ) : Link τ := { l with ctx := .dropping, wakeup := true }

/-- The join has returned: the eventfd is closed, the receiver and the maps are dropped. -/
def endDrop (l : Link τ) : Link τ := { l with ctx := .dropped, wakeupFd := false, channel := [], ring := [] }

/-- One step. -/
def step (l : Link τ) : LinkAction τ → Option (Link τ)
  | .submit ev tag room => if l.ctx = .dropped then none else some (l.submit ev tag room)
  | .setup create addRing addWakeup =>
      match l.reader with
      | .starting => some (l.setup create addRing addWakeup)
      | _ => none
  | .wait answer =>
      match l.reader with
      | .waiting => l.wait answer
      | _ => none
  | .next =>
      match l.reader with
      | .draining => some l.next
      | _ => none
  | .send =>
      match l.reader with
      | .holding item => some (l.send item)
      | _ => none
  | .recv =>
      match l.ctx, l.channel with
      | .active, item :: channel => some { l with channel := channel, dispatched := l.dispatched ++ [item] }
      | _, _ => none
  | .disconnected =>
      match l.ctx, l.channel, l.reader with
      | .active, [], .stopped => some l.beginDrop
      | _, _, _ => none
  | .unwind => if l.ctx = .active then some l.beginDrop else none
  | .join =>
      match l.ctx, l.reader with
      | .dropping, .stopped => some l.endDrop
      | _, _ => none

/-- The state after `probe` has attached the programs and started the reader. -/
def start : Link τ :=
  { ring := [], reader := .starting, epfd := false, channel := [], ctx := .active, wakeup := false
    wakeupFd := true, submitted := [], accepted := [], dispatched := [] }

/-! ### The cases of a step -/

/-- What one step does. -/
inductive LinkCase (l : Link τ) : LinkAction τ → Link τ → Prop
  | submit {ev : ProcEvent} {tag : τ} {room : Bool} (hc : l.ctx ≠ .dropped) :
      LinkCase l (.submit ev tag room) (l.submit ev tag room)
  | setup {create addRing addWakeup : Bool} (hr : l.reader = .starting) :
      LinkCase l (.setup create addRing addWakeup) (l.setup create addRing addWakeup)
  | interrupted (hr : l.reader = .waiting) : LinkCase l (.wait (.error true)) l
  | leave {answer : EpollAnswer} (hr : l.reader = .waiting) : LinkCase l (.wait answer) l.exitLoop
  | readable (hr : l.reader = .waiting) (hw : l.wakeup = false) :
      LinkCase l (.wait (.ready true)) { l with reader := .draining }
  | next (hr : l.reader = .draining) : LinkCase l .next l.next
  | send {item : ProcEvent × τ} (hr : l.reader = .holding item) : LinkCase l .send (l.send item)
  | recv {item : ProcEvent × τ} {channel : List (ProcEvent × τ)} (hc : l.ctx = .active)
      (hq : l.channel = item :: channel) :
      LinkCase l .recv { l with channel := channel, dispatched := l.dispatched ++ [item] }
  | disconnected (hc : l.ctx = .active) (hq : l.channel = []) (hr : l.reader = .stopped) :
      LinkCase l .disconnected l.beginDrop
  | unwind (hc : l.ctx = .active) : LinkCase l .unwind l.beginDrop
  | join (hc : l.ctx = .dropping) (hr : l.reader = .stopped) : LinkCase l .join l.endDrop

theorem wait_case {l l' : Link τ} {answer : EpollAnswer} (hr : l.reader = .waiting) (h : l.wait answer = some l') :
    LinkCase l (.wait answer) l' := by
  cases answer with
  | error eintr =>
      cases eintr with
      | true =>
          obtain rfl : l = l' := Option.some.inj h
          exact .interrupted hr
      | false =>
          obtain rfl : l.exitLoop = l' := Option.some.inj h
          exact .leave hr
  | empty =>
      obtain rfl : l.exitLoop = l' := Option.some.inj h
      exact .leave hr
  | ready ring =>
      simp only [wait] at h
      split_ifs at h with hw hring
      · obtain rfl := Option.some.inj h
        exact .leave hr
      · obtain rfl := Option.some.inj h
        rw [hring]
        exact .readable hr (by simpa using hw)

theorem step_case {l l' : Link τ} {a : LinkAction τ} (h : step l a = some l') : LinkCase l a l' := by
  cases a with
  | submit ev tag room =>
      simp only [step] at h
      split_ifs at h with hc
      obtain rfl := Option.some.inj h
      exact .submit hc
  | setup create addRing addWakeup =>
      simp only [step] at h
      split at h
      case h_1 hr =>
        obtain rfl := Option.some.inj h
        exact .setup hr
      case h_2 => cases h
  | wait answer =>
      simp only [step] at h
      split at h
      case h_1 hr => exact wait_case hr h
      case h_2 => cases h
  | next =>
      simp only [step] at h
      split at h
      case h_1 hr =>
        obtain rfl := Option.some.inj h
        exact .next hr
      case h_2 => cases h
  | send =>
      simp only [step] at h
      split at h
      case h_1 item hr =>
        obtain rfl := Option.some.inj h
        exact .send hr
      case h_2 => cases h
  | recv =>
      simp only [step] at h
      split at h
      case h_1 item channel hc hq =>
        obtain rfl := Option.some.inj h
        exact .recv hc hq
      case h_2 => cases h
  | disconnected =>
      simp only [step] at h
      split at h
      case h_1 hc hq hr =>
        obtain rfl := Option.some.inj h
        exact .disconnected hc hq hr
      case h_2 => cases h
  | unwind =>
      simp only [step] at h
      split_ifs at h with hc
      obtain rfl := Option.some.inj h
      exact .unwind hc
  | join =>
      simp only [step] at h
      split at h
      case h_1 hc hr =>
        obtain rfl := Option.some.inj h
        exact .join hc hr
      case h_2 => cases h

/-- The calls before the loop end at `epoll_wait` or in a return, with `epfd` closed again. -/
theorem setup_case (l : Link τ) (create addRing addWakeup : Bool) :
    l.setup create addRing addWakeup = { l with epfd := true, reader := .waiting } ∨
      l.setup create addRing addWakeup = { l with reader := .stopped } ∨
      l.setup create addRing addWakeup = l.exitLoop := by
  cases create
  case false => exact Or.inr (Or.inl rfl)
  cases addRing
  case false => exact Or.inr (Or.inr rfl)
  cases addWakeup
  case false => exact Or.inr (Or.inr rfl)
  exact Or.inl rfl

/-- The next record is read and held, or it is short and skipped; an empty ring ends the inner loop. -/
theorem next_case (l : Link τ) :
    (l.ring = [] ∧ l.next = { l with reader := .waiting }) ∨
      (∃ bytes tag ring ev, l.ring = (bytes, tag) :: ring ∧ readEvent bytes = some ev ∧
        l.next = { l with ring := ring, reader := .holding (ev, tag) }) ∨
      ∃ bytes tag ring, l.ring = (bytes, tag) :: ring ∧ readEvent bytes = none ∧
        l.next = { l with ring := ring } := by
  unfold next
  cases l.ring with
  | nil => exact Or.inl ⟨rfl, rfl⟩
  | cons r ring =>
      obtain ⟨bytes, tag⟩ := r
      cases hread : readEvent bytes with
      | some ev => exact Or.inr (Or.inl ⟨bytes, tag, ring, ev, rfl, hread, by simp [hread]⟩)
      | none => exact Or.inr (Or.inr ⟨bytes, tag, ring, rfl, hread, by simp [hread]⟩)

/-! ### First in, first out -/

/-- The events in the ring. -/
def records (l : Link τ) : List (ProcEvent × τ) :=
  l.ring.filterMap (fun r => (readEvent r.1).map (fun ev => (ev, r.2)))

/-- The events on their way, the oldest first. -/
def pending (l : Link τ) : List (ProcEvent × τ) := l.channel ++ (l.reader.held ++ l.records)

theorem records_submit (l : Link τ) (ev : ProcEvent) (tag : τ) (room : Bool) :
    (l.submit ev tag room).records = if room then l.records ++ [(ev, tag)] else l.records := by
  cases room with
  | true => simp [records, submit, List.filterMap_append, readEvent_bytes]
  | false => rfl

theorem pending_next {l : Link τ} (hr : l.reader = .draining) : l.next.pending = l.pending := by
  obtain ⟨hring, he⟩ | ⟨bytes, tag, ring, ev, hring, hread, he⟩ | ⟨bytes, tag, ring, hring, hread, he⟩ :=
    next_case l
  · simp [he, pending, records, hr, hring, Reader.held]
  · simp [he, pending, records, hr, hring, Reader.held, hread]
  · simp [he, pending, records, hr, hring, Reader.held, hread]

/-- What the daemon has dispatched and what is on its way is what the ring had room for. -/
structure Flow (l : Link τ) : Prop where
  order : l.ctx ≠ .dropped → l.dispatched ++ l.pending = l.accepted
  done : l.dispatched <+: l.accepted
  room : l.accepted.Sublist l.submitted

theorem flow_start : (start : Link τ).Flow := ⟨fun _ => rfl, List.prefix_rfl, List.Sublist.refl _⟩

/-- A step that neither accepts nor dispatches and that loses nothing. -/
theorem Flow.of_eq {l l' : Link τ} (h : l.Flow)
    (hp : l'.ctx ≠ .dropped → l.ctx ≠ .dropped ∧ l'.pending = l.pending) (hd : l'.dispatched = l.dispatched)
    (ha : l'.accepted = l.accepted) (hs : l'.submitted = l.submitted) : l'.Flow := by
  refine ⟨fun hc => ?_, ?_, ?_⟩
  · obtain ⟨hc, hp⟩ := hp hc
    rw [hd, hp, ha]
    exact h.order hc
  · rw [hd, ha]
    exact h.done
  · rw [ha, hs]
    exact h.room

theorem Flow.submit {l : Link τ} (h : l.Flow) (ev : ProcEvent) (tag : τ) (room : Bool) :
    (l.submit ev tag room).Flow := by
  cases room with
  | true =>
      refine ⟨fun hc => ?_, h.done.trans (List.prefix_append _ _), h.room.append_right _⟩
      have ho := h.order hc
      simp only [pending, records_submit] at ho ⊢
      simp only [Link.submit, if_true, ← ho, List.append_assoc]
  | false =>
      refine ⟨fun hc => ?_, h.done, h.room.trans (List.sublist_append_left _ _)⟩
      have ho := h.order hc
      simp only [pending, records_submit] at ho ⊢
      exact ho

theorem Flow.recv {l : Link τ} (h : l.Flow) (hc : l.ctx = .active) {item : ProcEvent × τ}
    {channel : List (ProcEvent × τ)} (hq : l.channel = item :: channel) :
    Flow { l with channel := channel, dispatched := l.dispatched ++ [item] } := by
  have ho : l.dispatched ++ l.pending = l.accepted := h.order (by simp [hc])
  have hsplit : (l.dispatched ++ [item]) ++ (channel ++ (l.reader.held ++ l.records)) = l.accepted := by
    rw [← ho, pending, hq]
    simp
  exact ⟨fun _ => hsplit, ⟨_, hsplit⟩, h.room⟩

theorem Flow.setup {l : Link τ} (h : l.Flow) (hr : l.reader = .starting) (create addRing addWakeup : Bool) :
    (l.setup create addRing addWakeup).Flow := by
  rcases setup_case l create addRing addWakeup with he | he | he
  all_goals
    rw [he]
    exact h.of_eq (fun hc => ⟨hc, by simp [pending, records, exitLoop, hr, Reader.held]⟩) rfl rfl rfl

theorem Flow.next {l : Link τ} (h : l.Flow) (hr : l.reader = .draining) : l.next.Flow := by
  have hp := pending_next hr
  obtain ⟨hring, he⟩ | ⟨bytes, tag, ring, ev, hring, hread, he⟩ | ⟨bytes, tag, ring, hring, hread, he⟩ :=
    next_case l
  all_goals
    rw [he] at hp ⊢
    exact h.of_eq (fun hc => ⟨hc, hp⟩) rfl rfl rfl

theorem Flow.send {l : Link τ} (h : l.Flow) {item : ProcEvent × τ} (hr : l.reader = .holding item) :
    (l.send item).Flow := by
  unfold Link.send
  split_ifs with hc
  · exact h.of_eq (fun hc' => absurd hc hc') rfl rfl rfl
  · exact h.of_eq (fun hc' => ⟨hc', by simp [pending, records, hr, Reader.held]⟩) rfl rfl rfl

theorem Flow.step {l l' : Link τ} {a : LinkAction τ} (h : l.Flow) (hs : Link.step l a = some l') : l'.Flow := by
  cases step_case hs with
  | submit hc => exact h.submit _ _ _
  | setup hr => exact h.setup hr _ _ _
  | interrupted hr => exact h
  | leave hr =>
      exact h.of_eq (fun hc => ⟨hc, by simp [pending, records, exitLoop, hr, Reader.held]⟩) rfl rfl rfl
  | readable hr hw => exact h.of_eq (fun hc => ⟨hc, by simp [pending, records, hr, Reader.held]⟩) rfl rfl rfl
  | next hr => exact h.next hr
  | send hr => exact h.send hr
  | recv hc hq => exact h.recv hc hq
  | disconnected hc hq hr => exact h.of_eq (fun _ => ⟨by simp [hc], rfl⟩) rfl rfl rfl
  | unwind hc => exact h.of_eq (fun _ => ⟨by simp [hc], rfl⟩) rfl rfl rfl
  | join hc hr => exact h.of_eq (fun hc' => absurd rfl hc') rfl rfl rfl

/-- **First in, first out.**  The daemon dispatches what the ring had room for, in the order of
submission, each event as it was written and at most once; until the context is gone nothing
else is on its way. -/
theorem link_fifo (l : Link τ) (h : Runs.Reachable step (fun _ _ => True) (fun l => l = start) l) :
    l.dispatched <+: l.accepted ∧ l.accepted.Sublist l.submitted ∧
      (l.ctx ≠ .dropped → l.dispatched ++ l.pending = l.accepted) := by
  have hI : l.Flow := h.invariant (fun _ h₀ => h₀ ▸ flow_start) fun _ _ _ hI _ hs => hI.step hs
  exact ⟨hI.done, hI.room, hI.order⟩

/-- One event is dispatched and another finds no room. -/
theorem link_fifo_no_room :
    ∃ l : Link ℕ, Runs.run step start [.setup true true true, .submit ⟨1, 2, Comm.zero, eventFork⟩ 0 true,
        .wait (.ready true), .next, .send, .submit ⟨1, 3, Comm.zero, eventFork⟩ 1 false, .recv] = some l ∧
      l.dispatched = [(⟨1, 2, Comm.zero, eventFork⟩, 0)] ∧ l.dispatched <+: l.accepted ∧
      l.accepted.Sublist l.submitted ∧ (l.ctx ≠ .dropped → l.dispatched ++ l.pending = l.accepted) := by
  obtain ⟨l, hs, hd⟩ := Runs.exists_run step (start : Link ℕ)
    [.setup true true true, .submit ⟨1, 2, Comm.zero, eventFork⟩ 0 true, .wait (.ready true), .next, .send,
      .submit ⟨1, 3, Comm.zero, eventFork⟩ 1 false, .recv]
    (fun l => decide (l.dispatched = [(⟨1, 2, Comm.zero, eventFork⟩, 0)])) (by decide +kernel)
  exact ⟨l, hs, of_decide_eq_true hd, link_fifo l ⟨_, rfl, Runs.steps_of_run (fun _ _ _ => trivial) hs⟩⟩

/-! ### The end of the link -/

/-- The descriptors and the states of the two threads agree. -/
structure Paired (l : Link τ) : Prop where
  epfd : l.epfd = l.reader.looping
  eventfd : l.wakeupFd = true ↔ l.ctx ≠ .dropped
  joined : l.ctx = .dropped → l.reader = .stopped

theorem paired_start : (start : Link τ).Paired := ⟨rfl, by simp [start], by simp [start]⟩

/-- A step of the reader between two states of its loop, or its return. -/
theorem Paired.of_reader {l l' : Link τ} (h : l.Paired) (he : l'.epfd = l'.reader.looping) (hc : l'.ctx = l.ctx)
    (hw : l'.wakeupFd = l.wakeupFd) (hr : l.reader ≠ .stopped ∨ l'.reader = l.reader) : l'.Paired := by
  refine ⟨he, by rw [hw, hc]; exact h.eventfd, fun hd => ?_⟩
  rw [hc] at hd
  rcases hr with hr | hr
  · exact absurd (h.joined hd) hr
  · rw [hr]
    exact h.joined hd

theorem Paired.step {l l' : Link τ} {a : LinkAction τ} (h : l.Paired) (hs : Link.step l a = some l') : l'.Paired := by
  have he := h.epfd
  cases step_case hs with
  | submit hc => exact h.of_reader he rfl rfl (Or.inr rfl)
  | setup hr =>
      rw [hr] at he
      rcases setup_case l _ _ _ with ho | ho | ho
      all_goals rw [ho]
      · exact h.of_reader rfl rfl rfl (Or.inl (by simp [hr]))
      · exact h.of_reader he rfl rfl (Or.inl (by simp [hr]))
      · exact h.of_reader rfl rfl rfl (Or.inl (by simp [hr]))
  | interrupted hr => exact h
  | leave hr => exact h.of_reader rfl rfl rfl (Or.inl (by simp [hr]))
  | readable hr hw =>
      rw [hr] at he
      exact h.of_reader he rfl rfl (Or.inl (by simp [hr]))
  | next hr =>
      obtain ⟨-, ho⟩ | ⟨_, _, _, _, -, -, ho⟩ | ⟨_, _, _, -, -, ho⟩ := next_case l
      all_goals rw [ho]
      · exact h.of_reader (by rw [hr] at he; exact he) rfl rfl (Or.inl (by simp [hr]))
      · exact h.of_reader (by rw [hr] at he; exact he) rfl rfl (Or.inl (by simp [hr]))
      · exact h.of_reader he rfl rfl (Or.inr rfl)
  | send hr =>
      rw [hr] at he
      unfold Link.send
      split_ifs
      · exact h.of_reader rfl rfl rfl (Or.inl (by simp [hr]))
      · exact h.of_reader he rfl rfl (Or.inl (by simp [hr]))
  | recv hc hq => exact h.of_reader he rfl rfl (Or.inr rfl)
  | disconnected hc hq hr => exact ⟨he, by simpa [hc, beginDrop] using h.eventfd, by simp [beginDrop]⟩
  | unwind hc => exact ⟨he, by simpa [hc, beginDrop] using h.eventfd, by simp [beginDrop]⟩
  | join hc hr => exact ⟨he, by simp [endDrop], fun _ => hr⟩

/-- **The descriptors outlive their use.**  While the reader runs, the eventfd is open and the
receiver is there, so that no send fails; `epfd` is open exactly in the reader's loop; and when
the context is gone, the reader has returned and both descriptors are closed. -/
theorem link_descriptors (l : Link τ) (h : Runs.Reachable step (fun _ _ => True) (fun l => l = start) l) :
    (l.reader ≠ .stopped → l.wakeupFd = true ∧ l.ctx ≠ .dropped) ∧ l.epfd = l.reader.looping ∧
      (l.ctx = .dropped → l.reader = .stopped ∧ l.epfd = false ∧ l.wakeupFd = false) ∧
      ∀ item, l.reader = .holding item →
        step l .send = some { l with channel := l.channel ++ [item], reader := .draining } := by
  have hI : l.Paired := h.invariant (fun _ h₀ => h₀ ▸ paired_start) fun _ _ _ hI _ hs => hI.step hs
  have halive : l.reader ≠ .stopped → l.ctx ≠ .dropped := fun hr hd => hr (hI.joined hd)
  refine ⟨fun hr => ⟨hI.eventfd.mpr (halive hr), halive hr⟩, hI.epfd, fun hd => ⟨hI.joined hd, ?_, ?_⟩,
    fun item hr => ?_⟩
  · rw [hI.epfd, hI.joined hd]
    rfl
  · rw [Bool.eq_false_iff]
    exact fun hw => hI.eventfd.mp hw hd
  · have hd : l.ctx ≠ .dropped := halive (by simp [hr])
    simp only [Link.step, hr, Link.send, if_neg hd]

/-- The main thread unwinds while the reader holds an event. -/
theorem link_descriptors_unwinding :
    ∃ l : Link ℕ, Runs.run step start [.setup true true true, .submit ⟨1, 2, Comm.zero, eventFork⟩ 0 true,
        .wait (.ready true), .next, .unwind] = some l ∧ l.ctx = .dropping ∧
      (l.reader ≠ .stopped → l.wakeupFd = true ∧ l.ctx ≠ .dropped) ∧ l.epfd = l.reader.looping ∧
      (l.ctx = .dropped → l.reader = .stopped ∧ l.epfd = false ∧ l.wakeupFd = false) ∧
      ∀ item, l.reader = .holding item →
        step l .send = some { l with channel := l.channel ++ [item], reader := .draining } := by
  obtain ⟨l, hs, hd⟩ := Runs.exists_run step (start : Link ℕ)
    [.setup true true true, .submit ⟨1, 2, Comm.zero, eventFork⟩ 0 true, .wait (.ready true), .next, .unwind]
    (fun l => decide (l.ctx = .dropping)) (by decide +kernel)
  exact ⟨l, hs, of_decide_eq_true hd, link_descriptors l ⟨_, rfl, Runs.steps_of_run (fun _ _ _ => trivial) hs⟩⟩

/-- The main thread does not panic, so that the drop begins only when the channel is disconnected. -/
def NoPanic (_ : Link τ) (a : LinkAction τ) : Prop := a.isUnwind = false

instance (l : Link τ) (a : LinkAction τ) : Decidable (NoPanic l a) := inferInstanceAs (Decidable (_ = _))

/-- The context is dropped after the reader has returned and all it sent has been dispatched. -/
def Drained (l : Link τ) : Prop := l.ctx ≠ .active → l.reader = .stopped ∧ l.channel = []

theorem Drained.step {l l' : Link τ} {a : LinkAction τ} (h : l.Drained) (ha : NoPanic l a)
    (hs : Link.step l a = some l') : l'.Drained := by
  -- no step of the reader is possible once the drop has begun
  have hrun : ∀ {P : Prop}, l.reader ≠ .stopped → l.ctx ≠ .active → P := fun hr hc => absurd (h hc).1 hr
  cases step_case hs with
  | submit hc => exact h
  | setup hr =>
      intro hc
      rcases setup_case l _ _ _ with ho | ho | ho
      all_goals
        rw [ho] at hc
        exact hrun (by simp [hr]) hc
  | interrupted hr => exact h
  | leave hr => exact fun hc => hrun (by simp [hr]) hc
  | readable hr hw => exact fun hc => hrun (by simp [hr]) hc
  | next hr =>
      intro hc
      obtain ⟨-, ho⟩ | ⟨_, _, _, _, -, -, ho⟩ | ⟨_, _, _, -, -, ho⟩ := next_case l
      all_goals
        rw [ho] at hc
        exact hrun (by simp [hr]) hc
  | send hr =>
      intro hc
      unfold Link.send at hc
      split_ifs at hc
      all_goals exact hrun (by simp [hr]) hc
  | recv hc hq => exact fun hc' => absurd hc hc'
  | disconnected hc hq hr => exact fun _ => ⟨hr, hq⟩
  | unwind hc => cases ha
  | join hc hr => exact fun _ => ⟨hr, rfl⟩

/-- **The fallback loses nothing that was taken from the ring.**  Without a panic, when the daemon
gives up the event channel, everything that the reader read has been dispatched, in order; what
is missing is what was left in the ring; and the join returns at once. -/
theorem link_fallback (l : Link τ) (h : Runs.Reachable step NoPanic (fun l => l = start) l) (hc : l.ctx = .dropping) :
    l.reader = .stopped ∧ l.dispatched ++ l.records = l.accepted ∧ step l .join = some l.endDrop := by
  have hF : l.Flow :=
    (h.mono fun _ _ _ => trivial).invariant (fun _ h₀ => h₀ ▸ flow_start) fun _ _ _ hI _ hs => hI.step hs
  have hD : l.Drained := h.invariant (fun _ h₀ => by simp [h₀, Drained, start]) fun _ _ _ hI ha hs => hI.step ha hs
  obtain ⟨hr, hq⟩ := hD (by simp [hc])
  have ho := hF.order (by simp [hc])
  refine ⟨hr, ?_, by simp [Link.step, hc, hr]⟩
  simpa [pending, hq, hr, Reader.held] using ho

/-- `epoll_wait` fails with a record in the ring. -/
theorem link_fallback_epoll_error :
    ∃ l : Link ℕ, Runs.Steps step NoPanic start l ∧ l.ctx = .dropping ∧ l.reader = .stopped ∧
      l.dispatched ++ l.records = l.accepted ∧ step l .join = some l.endDrop := by
  obtain ⟨l, hs, hd⟩ := Runs.exists_checkedRun step NoPanic (start : Link ℕ)
    [.setup true true true, .submit ⟨1, 2, Comm.zero, eventFork⟩ 0 true, .wait (.error false), .disconnected]
    (fun l => decide (l.ctx = .dropping)) (by decide +kernel)
  have hc : l.ctx = .dropping := of_decide_eq_true hd
  exact ⟨l, hs, hc, link_fallback l ⟨_, rfl, hs⟩ hc⟩

/-! ### The join returns -/

/-- The reader's steps; a wait that a signal interrupts is repeated and does not count. -/
def work : LinkAction τ → ℕ
  | .setup _ _ _ => 1
  | .wait (.error true) => 0
  | .wait _ => 1
  | .next => 1
  | .send => 1
  | _ => 0

/-- A record that is added to the ring is taken and sent. -/
def gain : LinkAction τ → ℕ
  | .submit _ _ _ => 2
  | _ => 0

/-- The steps the reader has left once the eventfd has been written. -/
def left (l : Link τ) : ℕ :=
  match l.reader with
  | .starting => 2
  | .waiting => 1
  | .draining => 2 * l.ring.length + 2
  | .holding _ => 2 * l.ring.length + 3
  | .stopped => 0

theorem work_wait_le (answer : EpollAnswer) : work (.wait answer : LinkAction τ) ≤ 1 := by
  cases answer with
  | error eintr => cases eintr <;> simp [work]
  | empty => simp [work]
  | ready ring => simp [work]

theorem left_submit (l : Link τ) (ev : ProcEvent) (tag : τ) (room : Bool) :
    (l.submit ev tag room).left ≤ l.left + 2 := by
  cases room with
  | true => cases hr : l.reader <;> simp [left, submit, hr, Nat.mul_succ]
  | false => exact Nat.le_add_right l.left 2

theorem left_step {l l' : Link τ} {a : LinkAction τ} (hw : l.wakeup = true) (hs : step l a = some l') :
    l'.wakeup = true ∧ l'.left + work a ≤ l.left + gain a := by
  cases step_case hs with
  | submit hc => exact ⟨hw, left_submit l _ _ _⟩
  | setup hr =>
      rcases setup_case l _ _ _ with ho | ho | ho
      all_goals
        rw [ho]
        exact ⟨hw, by simp [left, exitLoop, hr, work, gain]⟩
  | interrupted hr => exact ⟨hw, le_refl _⟩
  | @leave answer hr =>
      refine ⟨hw, ?_⟩
      have hle := work_wait_le (τ := τ) answer
      simp only [left, exitLoop, hr, gain]
      omega
  | readable hr hw' =>
      rw [hw] at hw'
      cases hw'
  | next hr =>
      obtain ⟨hring, ho⟩ | ⟨bytes, tag, ring, ev, hring, -, ho⟩ | ⟨bytes, tag, ring, hring, -, ho⟩ :=
        next_case l
      · exact ⟨by rw [ho]; exact hw, by simp [ho, left, hr, work, gain]⟩
      · refine ⟨by rw [ho]; exact hw, ?_⟩
        simp only [ho, left, hr, hring, List.length_cons, work, gain]
        omega
      · refine ⟨by rw [ho]; exact hw, ?_⟩
        simp only [ho, left, hr, hring, List.length_cons, work, gain]
        omega
  | send hr =>
      unfold Link.send
      split_ifs
      all_goals exact ⟨hw, by simp [left, exitLoop, hr, work, gain]⟩
  | recv hc hq => exact ⟨hw, le_refl _⟩
  | disconnected hc hq hr => exact ⟨rfl, le_refl _⟩
  | unwind hc => exact ⟨rfl, le_refl _⟩
  | join hc hr => exact ⟨hw, by simp [left, endDrop, hr, work, gain]⟩

/-- Until the reader has returned, one of its steps is possible. -/
theorem exists_work (l : Link τ) (hw : l.wakeup = true) (hr : l.reader ≠ .stopped) :
    ∃ a : LinkAction τ, work a = 1 ∧ (step l a).isSome = true := by
  cases h : l.reader with
  | starting => exact ⟨.setup true true true, rfl, by simp [step, h]⟩
  | waiting => exact ⟨.wait (.ready false), rfl, by simp [step, h, wait, hw]⟩
  | draining => exact ⟨.next, rfl, by simp [step, h]⟩
  | holding item => exact ⟨.send, rfl, by simp [step, h]⟩
  | stopped => exact absurd h hr

/-- **The join returns.**  Once the eventfd has been written, the reader takes a bounded number of
steps, two for each record that the kernel still adds and a number fixed by the ring's content,
and as long as it has not returned one of its steps is possible. -/
theorem link_join_returns (l l' : Link τ) (as : List (LinkAction τ)) (hw : l.wakeup = true)
    (h : Runs.run step l as = some l') :
    (as.map work).sum ≤ l.left + (as.map gain).sum ∧
      (l'.reader ≠ .stopped → ∃ a : LinkAction τ, work a = 1 ∧ (step l' a).isSome = true) := by
  obtain ⟨hw', hle⟩ := Runs.run_potential (I := fun l => l.wakeup = true) (fun _ _ _ => left_step) hw h
  exact ⟨by omega, exists_work l' hw'⟩

/-- Two records are in the ring when the main thread unwinds, and a third one is added later. -/
theorem link_join_returns_draining :
    ∃ l l' : Link ℕ,
      Runs.run step start [.setup true true true, .submit ⟨1, 2, Comm.zero, eventFork⟩ 0 true, .wait (.ready true),
        .submit ⟨1, 3, Comm.zero, eventFork⟩ 1 true, .unwind] = some l ∧
      Runs.run step l [.next, .send, .submit ⟨1, 4, Comm.zero, eventFork⟩ 2 true, .next, .send, .next, .send,
        .next] = some l' ∧
      7 ≤ l.left + 2 ∧ ∃ a : LinkAction ℕ, work a = 1 ∧ (step l' a).isSome = true := by
  obtain ⟨l, hs, hp⟩ := Runs.exists_run step (start : Link ℕ)
    [.setup true true true, .submit ⟨1, 2, Comm.zero, eventFork⟩ 0 true, .wait (.ready true),
      .submit ⟨1, 3, Comm.zero, eventFork⟩ 1 true, .unwind]
    (fun l => l.wakeup && (Runs.run step l [.next, .send, .submit ⟨1, 4, Comm.zero, eventFork⟩ 2 true, .next, .send,
      .next, .send, .next]).any fun l' => l'.reader.looping) (by decide +kernel)
  obtain ⟨hw, hp⟩ := Bool.and_eq_true_iff.mp hp
  obtain ⟨l', hs', hloop⟩ := (Option.any_eq_true _ _).mp hp
  obtain ⟨hwork, hnext⟩ := link_join_returns l l' _ hw hs'
  refine ⟨l, l', hs, hs', hwork, hnext fun hr => ?_⟩
  rw [hr] at hloop
  cases hloop

end Link

end AetherOptExt
