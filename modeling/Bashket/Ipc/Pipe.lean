import Bashket.Lib.Ring
import Bashket.Lib.Run

/-!
# Pipes

A pipe is a ring of bytes with a lock. `pipe_read` waits until there is a byte or the writing end is
closed, `pipe_write` waits whenever the ring is full. A call that waits gives up the lock while it
sleeps; from the moment it has the lock (again) up to its return or its next sleep it is one step.

Calls to `pipe_write` are numbered, and every byte that goes into the ring is recorded with the
number of its call.
-/

namespace Bashket.Pipes

open Run List

abbrev pipeBufferSize : ℕ := 4096

structure Pipe where
  buffer : ℕ → UInt8
  head : ℕ
  tail : ℕ
  count : ℕ
  readerOpen : Bool
  writerOpen : Bool

namespace Pipe

variable (p : Pipe)

/-- `pipe_create` -/
def create : Pipe where
  buffer _ := 0
  head := 0
  tail := 0
  count := 0
  readerOpen := true
  writerOpen := true

def contents : List UInt8 := Ring.read p.buffer pipeBufferSize p.tail p.count

/-- The loop of `pipe_read` that takes `n` bytes out. -/
def take (n : ℕ) : Pipe :=
  { p with tail := (p.tail + n) % pipeBufferSize, count := p.count - n }

/-- The loop of `pipe_write` that puts bytes in. -/
def fill (bytes : List UInt8) : Pipe :=
  { p with
    buffer := Ring.write pipeBufferSize p.buffer p.head bytes
    head := (p.head + bytes.length) % pipeBufferSize
    count := p.count + bytes.length }

end Pipe

inductive Err
  | intr
  | pipe
deriving DecidableEq, Repr

inductive Status
  /-- it goes on, `done` bytes are in -/
  | running (done : ℕ)
  | returned (result : Except Err ℕ)
  | killed (done : ℕ)

/-- A call to `pipe_write`. -/
structure Call where
  src : List UInt8
  status : Status

inductive Pc
  | idle
  /-- `pipe_read` of `count` bytes, before it has the lock (again) -/
  | reading (count : ℕ)
  /-- the call number `call` to `pipe_write`, before it has the lock (again) -/
  | writing (call : ℕ)

structure State where
  pipe : Pipe
  pc : ℕ → Pc
  /-- the calls to `pipe_write` so far -/
  calls : List Call
  accepted : List (ℕ × UInt8)
  returned : List UInt8

inductive Event
  /-- `pipe_read` is called, and `pipe_write` -/
  | read (task count : ℕ)
  | write (task : ℕ) (src : List UInt8)
  /-- a call has the lock (again); `interrupted`: a signal is waiting for its task -/
  | turn (task : ℕ) (interrupted : Bool)
  | die (task : ℕ)
  /-- `pipe_close_reader`, `pipe_close_writer` -/
  | closeReader
  | closeWriter

inductive Outcome
  | read (result : Except Err (List UInt8))
  | write (call : ℕ) (result : Except Err ℕ)

namespace State

variable (s : State)

def goto (t : ℕ) (pc : Pc) : State := { s with pc := Function.update s.pc t pc }

def setStatus (c : ℕ) (status : Status) : State :=
  { s with calls := s.calls.modify c fun call => { call with status } }

/-- `pipe_read`, with the lock.  `none`: it sleeps. -/
def readTurn (count : ℕ) (interrupted : Bool) : Option (Except Err (List UInt8)) :=
  if s.pipe.count = 0 ∧ s.pipe.writerOpen then
    if interrupted then some (.error .intr) else none
  else some (.ok (s.pipe.contents.take count))

/-- The bytes a `pipe_write` of `src` that has put in `done` bytes can put in now. -/
def room (src : List UInt8) (done : ℕ) : List UInt8 :=
  if s.pipe.readerOpen then (src.drop done).take (pipeBufferSize - s.pipe.count) else []

/-- `pipe_write` of `src`, with the lock, when it can put in no more than the `done` bytes.  `none`:
it sleeps. -/
def writeTurn (src : List UInt8) (done : ℕ) (interrupted : Bool) : Option (Except Err ℕ) :=
  if done < src.length ∧ s.pipe.readerOpen then
    if interrupted then some (if done > 0 then .ok done else .error .intr) else none
  else if done = 0 ∧ src.length > 0 then some (.error .pipe)
  else some (.ok done)

def read (t count : ℕ) (interrupted : Bool) : State :=
  match s.readTurn count interrupted with
  | none => s
  | some (.error _) => s.goto t .idle
  | some (.ok bytes) =>
    { s with pipe := s.pipe.take bytes.length, returned := s.returned ++ bytes }.goto t .idle

def write (t c : ℕ) (src : List UInt8) (done : ℕ) (interrupted : Bool) : State :=
  let bytes := s.room src done
  let done := done + bytes.length
  let s' : State :=
    { s with pipe := s.pipe.fill bytes, accepted := s.accepted ++ bytes.map (c, ·) }
  match s.writeTurn src done interrupted with
  | none => s'.setStatus c (.running done)
  | some result => (s'.setStatus c (.returned result)).goto t .idle

def running (c : ℕ) : Option (List UInt8 × ℕ) :=
  match s.calls[c]? with
  | some ⟨src, .running done⟩ => some (src, done)
  | _ => none

/-- One that cannot happen changes nothing. -/
def step : Event → State
  | .read t count =>
    match s.pc t with
    | .idle => if count = 0 then s else s.goto t (.reading count)
    | _ => s
  | .write t src =>
    match s.pc t with
    | .idle =>
      { s with calls := s.calls ++ [Call.mk src (.running 0)] }.goto t (.writing s.calls.length)
    | _ => s
  | .turn t interrupted =>
    match s.pc t with
    | .idle => s
    | .reading count => s.read t count interrupted
    | .writing c =>
      match s.running c with
      | some (src, done) => s.write t c src done interrupted
      | none => s
  | .die t =>
    match s.pc t with
    | .idle => s
    | .reading _ => s.goto t .idle
    | .writing c =>
      match s.running c with
      | some (_, done) => (s.setStatus c (.killed done)).goto t .idle
      | none => s
  | .closeReader => { s with pipe := { s.pipe with readerOpen := false } }
  | .closeWriter => { s with pipe := { s.pipe with writerOpen := false } }

def outcome : Event → Option Outcome
  | .read t count =>
    match s.pc t with
    | .idle => if count = 0 then some (.read (.ok [])) else none
    | _ => none
  | .turn t interrupted =>
    match s.pc t with
    | .idle => none
    | .reading count => (s.readTurn count interrupted).map .read
    | .writing c =>
      match s.running c with
      | some (src, done) =>
        (s.writeTurn src (done + (s.room src done).length) interrupted).map (.write c)
      | none => none
  | _ => none

end State

def start : State where
  pipe := .create
  pc _ := .idle
  calls := []
  accepted := []
  returned := []

/-! ### What is to hold -/

/-- The bytes a call has put in by its own account: the number it returned, none if an error. -/
def Status.count : Status → ℕ
  | .running done | .killed done | .returned (.ok done) => done
  | .returned (.error _) => 0

/-- The bytes the call number `c` has put in. -/
def State.contribution (s : State) (c : ℕ) : List UInt8 :=
  (s.accepted.filter (·.1 = c)).map Prod.snd

/-- What has been read and what is in the ring is what has been accepted, and that comes from the
calls to `pipe_write`, as they say. -/
structure State.Stream (s : State) : Prop where
  bytes : s.returned ++ s.pipe.contents = s.accepted.map Prod.snd
  calls : ∀ c (hc : c < s.calls.length),
    s.contribution c = s.calls[c].src.take s.calls[c].status.count ∧
      s.calls[c].status.count ≤ s.calls[c].src.length
  only : ∀ x ∈ s.accepted, x.1 < s.calls.length

/-- A read that returns 0 bytes asked for none, or finds the ring empty and the writing end
closed. -/
def State.EndOnly (s : State) (e : Event) : Prop :=
  s.outcome e = some (.read (.ok [])) →
    (∃ t, e = .read t 0) ∨ s.pipe.contents = [] ∧ s.pipe.writerOpen = false

/-! ### The ring -/

namespace Pipe

variable {p : Pipe}

/-- The head is `count` cells after the tail. -/
structure Ok (p : Pipe) : Prop where
  count_le : p.count ≤ pipeBufferSize
  head_eq : p.head = (p.tail + p.count) % pipeBufferSize

theorem create_ok : create.Ok := ⟨Nat.zero_le _, rfl⟩

@[simp] theorem length_contents (p : Pipe) : p.contents.length = p.count := Ring.length_read ..

theorem contents_take {n : ℕ} (hn : n ≤ p.count) : (p.take n).contents = p.contents.drop n := by
  unfold contents take
  rw [Ring.read_mod, Ring.drop_read _ _ _ hn]

theorem Ok.take (h : p.Ok) {n : ℕ} (hn : n ≤ p.count) : (p.take n).Ok := by
  refine ⟨(Nat.sub_le _ _).trans h.count_le, ?_⟩
  have hsum : p.tail + p.count = p.tail + n + (p.count - n) := by omega
  change p.head = ((p.tail + n) % pipeBufferSize + (p.count - n)) % pipeBufferSize
  rw [h.head_eq, hsum, Nat.mod_add_mod]

theorem contents_fill (h : p.Ok) {bytes : List UInt8}
    (hroom : p.count + bytes.length ≤ pipeBufferSize) :
    (p.fill bytes).contents = p.contents ++ bytes := by
  unfold contents fill
  rw [h.head_eq, Ring.write_start_mod]
  exact Ring.read_write_append _ _ _ _ hroom

theorem Ok.fill (h : p.Ok) {bytes : List UInt8}
    (hroom : p.count + bytes.length ≤ pipeBufferSize) : (p.fill bytes).Ok := by
  refine ⟨hroom, ?_⟩
  change (p.head + bytes.length) % pipeBufferSize = (p.tail + (p.count + bytes.length)) % _
  rw [h.head_eq, Nat.mod_add_mod, Nat.add_assoc]

end Pipe

/-! ### One step -/

namespace State

variable {s : State} {t c done : ℕ} {src : List UInt8}

theorem count_add_room_le (h : s.pipe.Ok) (src : List UInt8) (done : ℕ) :
    s.pipe.count + (s.room src done).length ≤ pipeBufferSize := by
  have := h.count_le
  unfold room
  split
  · rw [length_take]
    omega
  · simpa using this

theorem add_length_room_le (hdone : done ≤ src.length) :
    done + (s.room src done).length ≤ src.length := by
  unfold room
  split
  · rw [length_take, length_drop]
    omega
  · simpa using hdone

theorem take_room (s : State) (src : List UInt8) (done : ℕ) :
    src.take (done + (s.room src done).length) = src.take done ++ s.room src done := by
  have hfirst : (src.drop done).take (s.room src done).length = s.room src done := by
    unfold room
    split
    · rw [length_take, ← take_take, take_length]
    · rfl
  rw [take_add, hfirst]

/-- What a write returns is the number of bytes that it has put in, none if an error. -/
theorem writeTurn_count {interrupted : Bool} {result : Except Err ℕ}
    (h : s.writeTurn src done interrupted = some result) :
    (Status.returned result).count = done := by
  unfold writeTurn at h
  split at h
  · split at h
    · cases h
      split
      · rfl
      next h0 =>
        obtain rfl : done = 0 := by omega
        rfl
    · cases h
  · split at h
    next h0 =>
      cases h
      rw [h0.1]
      rfl
    · cases h
      rfl

theorem running_eq_some (h : s.running c = some (src, done)) :
    s.calls[c]? = some ⟨src, .running done⟩ := by
  unfold running at h
  split at h
  next src' done' hc =>
    cases h
    exact hc
  · cases h

structure Inv (s : State) : Prop where
  ring : s.pipe.Ok
  stream : s.Stream

theorem Inv.goto (h : s.Inv) (t : ℕ) (pc : Pc) : (s.goto t pc).Inv :=
  ⟨h.ring, h.stream.bytes, h.stream.calls, h.stream.only⟩

theorem length_calls_setStatus (s : State) (c : ℕ) (status : Status) :
    (s.setStatus c status).calls.length = s.calls.length :=
  length_modify ..

theorem getElem_calls_setStatus (s : State) (c d : ℕ) (status : Status)
    (hd : d < (s.setStatus c status).calls.length) (hd' : d < s.calls.length) :
    (s.setStatus c status).calls[d] =
      if c = d then { s.calls[d] with status } else s.calls[d] :=
  getElem_modify ..

theorem filter_record (l : List (ℕ × UInt8)) (bytes : List UInt8) (c d : ℕ) :
    ((l ++ bytes.map (c, ·)).filter (·.1 = d)).map Prod.snd =
      (l.filter (·.1 = d)).map Prod.snd ++ if d = c then bytes else [] := by
  rw [filter_append, map_append]
  congr 1
  split
  next h =>
    subst h
    rw [filter_eq_self.2 (by simp), map_map]
    exact map_id _
  next h =>
    rw [filter_eq_nil_iff.2, map_nil]
    intro x hx
    obtain ⟨b, -, rfl⟩ := mem_map.1 hx
    simpa using Ne.symm h

theorem Inv.read (h : s.Inv) (t count : ℕ) (interrupted : Bool) :
    (s.read t count interrupted).Inv := by
  unfold State.read
  cases hturn : s.readTurn count interrupted with
  | none => exact h
  | some result =>
    cases result with
    | error e => exact h.goto t .idle
    | ok bytes =>
      have hbytes : bytes = s.pipe.contents.take count := by
        unfold readTurn at hturn
        split at hturn
        · split at hturn <;> cases hturn
        · exact (Except.ok.inj (Option.some.inj hturn)).symm
      have hlen : bytes.length ≤ s.pipe.count := by
        rw [hbytes, length_take, Pipe.length_contents]
        omega
      refine Inv.goto (s := { s with pipe := _, returned := _ })
        ⟨h.ring.take hlen, ?_, h.stream.calls, h.stream.only⟩ t .idle
      change (s.returned ++ bytes) ++ (s.pipe.take bytes.length).contents = _
      have hsplit : bytes ++ s.pipe.contents.drop bytes.length = s.pipe.contents := by
        have htake : s.pipe.contents.take bytes.length = bytes := by
          rw [hbytes, length_take, ← take_take, take_length]
        nth_rewrite 1 [← htake]
        exact take_append_drop _ _
      rw [Pipe.contents_take hlen, append_assoc, hsplit]
      exact h.stream.bytes

theorem Inv.put (h : s.Inv) (hrun : s.running c = some (src, done)) {status : Status}
    (hcount : status.count = done + (s.room src done).length) :
    ({ s with
        pipe := s.pipe.fill (s.room src done)
        accepted := s.accepted ++ (s.room src done).map (c, ·) }.setStatus c status).Inv := by
  have hcall := running_eq_some hrun
  obtain ⟨hc, hcall⟩ := List.getElem?_eq_some_iff.1 hcall
  have hroom := count_add_room_le h.ring src done
  refine ⟨h.ring.fill hroom, ?_, fun d hd => ?_, fun x hx => ?_⟩
  · change s.returned ++ (s.pipe.fill (s.room src done)).contents =
      (s.accepted ++ (s.room src done).map (c, ·)).map Prod.snd
    rw [Pipe.contents_fill h.ring hroom, ← append_assoc, h.stream.bytes, map_append,
      map_map]
    congr 1
    exact (map_id _).symm
  · have hd' : d < s.calls.length := by
      rwa [length_calls_setStatus] at hd
    rw [getElem_calls_setStatus _ _ _ _ hd hd']
    change ((s.accepted ++ (s.room src done).map (c, ·)).filter (·.1 = d)).map Prod.snd = _ ∧ _
    obtain ⟨hbefore, hle⟩ := h.stream.calls d hd'
    unfold contribution at hbefore
    rw [filter_record, hbefore]
    rcases eq_or_ne d c with rfl | hne
    · rw [if_pos rfl, if_pos rfl, hcall, hcount]
      rw [hcall] at hle
      exact ⟨(take_room s src done).symm, add_length_room_le hle⟩
    · rw [if_neg hne, if_neg (Ne.symm hne), append_nil]
      exact ⟨rfl, hle⟩
  · rw [length_calls_setStatus]
    rcases mem_append.1 hx with hx | hx
    · exact h.stream.only x hx
    · obtain ⟨b, -, rfl⟩ := mem_map.1 hx
      exact hc

theorem Inv.write (h : s.Inv) (hrun : s.running c = some (src, done)) (t : ℕ)
    (interrupted : Bool) : (s.write t c src done interrupted).Inv := by
  unfold State.write
  dsimp only
  cases hturn : s.writeTurn src (done + (s.room src done).length) interrupted with
  | none => exact h.put hrun rfl
  | some result => exact (h.put hrun (writeTurn_count hturn)).goto t .idle

theorem Inv.kill (h : s.Inv) (hrun : s.running c = some (src, done)) :
    (s.setStatus c (.killed done)).Inv := by
  obtain ⟨hc, hcall⟩ := List.getElem?_eq_some_iff.1 (running_eq_some hrun)
  refine ⟨h.ring, h.stream.bytes, fun d hd => ?_, fun x hx => ?_⟩
  · have hd' : d < s.calls.length := by
      rwa [length_calls_setStatus] at hd
    rw [getElem_calls_setStatus _ _ _ _ hd hd']
    rcases eq_or_ne d c with rfl | hne
    · have := h.stream.calls d hd'
      rw [hcall] at this
      rw [if_pos rfl, hcall]
      exact this
    · rw [if_neg (Ne.symm hne)]
      exact h.stream.calls d hd'
  · rw [length_calls_setStatus]
    exact h.stream.only x hx

theorem Inv.call (h : s.Inv) (src : List UInt8) :
    { s with calls := s.calls ++ [Call.mk src (.running 0)] }.Inv := by
  refine ⟨h.ring, h.stream.bytes, fun d hd => ?_, fun x hx => ?_⟩
  · change s.contribution d = (s.calls ++ [Call.mk src (.running 0)])[d].src.take
        (s.calls ++ [Call.mk src (.running 0)])[d].status.count ∧
      (s.calls ++ [Call.mk src (.running 0)])[d].status.count ≤
        (s.calls ++ [Call.mk src (.running 0)])[d].src.length
    rcases lt_or_ge d s.calls.length with hlt | hge
    · rw [getElem_append_left hlt]
      exact h.stream.calls d hlt
    · rw [getElem_append_right hge]
      have hnone : s.contribution d = [] := by
        unfold contribution
        rw [filter_eq_nil_iff.2, map_nil]
        intro x hx
        have := h.stream.only x hx
        simpa using (by omega : x.1 ≠ d)
      rw [hnone, getElem_singleton]
      exact ⟨rfl, Nat.zero_le _⟩
  · have := h.stream.only x hx
    change x.1 < (s.calls ++ [_]).length
    rw [length_append]
    omega

theorem Inv.step (h : s.Inv) (e : Event) : (s.step e).Inv := by
  cases e with
  | read t count =>
    simp only [State.step]
    split
    · split
      · exact h
      · exact h.goto t _
    · exact h
  | write t src =>
    simp only [State.step]
    split
    · exact (h.call src).goto t _
    · exact h
  | turn t interrupted =>
    simp only [State.step]
    split
    · exact h
    · exact h.read t _ interrupted
    · split
      next hrun => exact h.write hrun t interrupted
      · exact h
  | die t =>
    simp only [State.step]
    split
    · exact h
    · exact h.goto t _
    · split
      next hrun => exact (h.kill hrun).goto t _
      · exact h
  | closeReader | closeWriter =>
    exact ⟨⟨h.ring.count_le, h.ring.head_eq⟩, h.stream.bytes, h.stream.calls, h.stream.only⟩

theorem readTurn_eq_nil {count : ℕ} {interrupted : Bool} (hcount : 0 < count)
    (h : s.readTurn count interrupted = some (.ok [])) :
    s.pipe.contents = [] ∧ s.pipe.writerOpen = false := by
  unfold readTurn at h
  split at h
  · split at h <;> cases h
  next hwait =>
    have hnil : s.pipe.contents = [] := by
      have := Except.ok.inj (Option.some.inj h)
      rw [take_eq_nil_iff] at this
      exact this.resolve_left hcount.ne'
    have hzero : s.pipe.count = 0 := by
      rw [← Pipe.length_contents, hnil]
      rfl
    refine ⟨hnil, ?_⟩
    simpa [hzero] using hwait

def Asked (s : State) : Prop := ∀ t count, s.pc t = .reading count → 0 < count

theorem Asked.goto (h : s.Asked) (t : ℕ) {pc : Pc}
    (hpc : ∀ count, pc = .reading count → 0 < count) : (s.goto t pc).Asked := by
  intro u count hu
  change Function.update s.pc t pc u = _ at hu
  rcases eq_or_ne u t with rfl | hne
  · rw [Function.update_self] at hu
    exact hpc count hu
  · rw [Function.update_of_ne hne] at hu
    exact h u count hu

theorem Asked.step (h : s.Asked) (e : Event) : (s.step e).Asked := by
  cases e with
  | read t count =>
    simp only [State.step]
    split
    · split
      · exact h
      next h0 => exact h.goto t fun _ hc => Pc.reading.inj hc ▸ Nat.pos_of_ne_zero h0
    · exact h
  | write t src =>
    simp only [State.step]
    split
    · exact Asked.goto (s := { s with calls := _ }) h t fun _ hc => nomatch hc
    · exact h
  | turn t interrupted =>
    simp only [State.step]
    split
    · exact h
    · unfold State.read
      split
      · exact h
      · exact h.goto t fun _ hc => nomatch hc
      · exact Asked.goto (s := { s with pipe := _, returned := _ }) h t fun _ hc => nomatch hc
    · split
      · unfold State.write
        dsimp only
        split
        · exact h
        · exact Asked.goto (s := State.setStatus { s with pipe := _, accepted := _ } _ _) h t
            fun _ hc => nomatch hc
      · exact h
  | die t =>
    simp only [State.step]
    split
    · exact h
    · exact h.goto t fun _ hc => nomatch hc
    · split
      · exact Asked.goto (s := State.setStatus s _ _) h t fun _ hc => nomatch hc
      · exact h
  | closeReader | closeWriter => exact h

theorem Asked.endOnly (h : s.Asked) (e : Event) : s.EndOnly e := by
  intro hout
  cases e with
  | read t count =>
    simp only [outcome] at hout
    split at hout
    · split at hout
      next h0 => exact .inl ⟨t, by rw [h0]⟩
      · cases hout
    · cases hout
  | turn t interrupted =>
    simp only [outcome] at hout
    split at hout
    · cases hout
    next count hpc =>
      cases hturn : s.readTurn count interrupted with
      | none => rw [hturn] at hout; cases hout
      | some result =>
        rw [hturn] at hout
        obtain rfl : result = .ok [] := Outcome.read.inj (Option.some.inj hout)
        exact .inr (readTurn_eq_nil (h t count hpc) hturn)
    · split at hout
      · cases hres : s.writeTurn _ _ interrupted with
        | none => rw [hres] at hout; cases hout
        | some result => rw [hres] at hout; cases hout
      · cases hout
  | write | die | closeReader | closeWriter => cases hout

end State

/-! ### Runs -/

theorem start_inv : start.Inv :=
  ⟨Pipe.create_ok, rfl, fun _ hc => absurd hc (Nat.not_lt_zero _), fun _ hx => nomatch hx⟩

/-- The bytes returned by reads and then those in the ring are the bytes put in, each call to
`pipe_write` has put in the bytes that it says, and a read of at least one byte returns 0 only if
the ring is empty and the writing end closed. -/
theorem pipe_is_stream (es : List Event) :
    Always State.step State.Stream start es ∧ Along State.step State.EndOnly start es := by
  constructor
  · refine Always.mono (fun _ h => h.stream)
      (always_of_induction (P := fun _ _ => True) (fun _ e h _ => h.step e) start_inv ?_)
    exact Along.of_forall fun _ _ => trivial
  · refine Along.mono (fun _ e h => h.1.endOnly e)
      (Along.with_invariant (I := State.Asked) (P := fun _ _ => True) (fun _ e h _ => h.step e)
        (fun _ _ h => nomatch h) ?_)
    exact Along.of_forall fun _ _ => trivial

/-- A read of no bytes returns 0 although the ring holds a byte and the writing end is open. -/
theorem read_nothing :
    let s := run State.step start [.write 0 [7], .turn 0 false]
    s.outcome (.read 1 0) = some (.read (.ok [])) ∧ s.pipe.contents = [7] ∧
      s.pipe.writerOpen = true :=
  ⟨rfl, rfl, rfl⟩

end Bashket.Pipes
