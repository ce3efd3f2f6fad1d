import Bashket.Lib.Run
import Bashket.Tcp.Calls

/-!
# Runs of one connection

A slot of the socket table together with what `tcp_write` accepted, what `tcp_read` returned and
which segments were sent since the connection in it began. Every critical section under `tcp_lock`
that touches the slot is an event, in any order. The owner's calls happen only while the owner holds
the socket, and `tcp_input` finds the slot only while a connection is in it (`find_connection`).
-/

namespace Bashket.Tcp

variable {s : Socket} {ip : BitVec 32} {remotePort port : BitVec 16} {iss : Seq} {c c' : Conn}
  {e : Event}

/-- A segment sent, and the place in the stream of the first byte it carries. -/
structure Emission where
  segment : OutSegment
  pos : ℕ
deriving DecidableEq, Repr

structure Conn where
  sock : Socket
  written : List UInt8
  received : List UInt8
  sent : List Emission

def Conn.init : Conn := ⟨Socket.zero, [], [], []⟩

/-- The critical sections that touch a slot, with what the environment decides in them. -/
inductive Event where
  | tcpOpen (tx rx : Option Memory) (refuseSack : Bool)
  | acceptSyn (listener : ℕ) (localPort : BitVec 16) (src : BitVec 32) (g : Segment)
      (tx rx : Option Memory) (refuseSack : Bool) (iss : Seq)
  | bind (port : BitVec 16)
  | listen (backlog : ℕ)
  | connect (ip : BitVec 32) (remotePort port : BitVec 16) (iss : Seq)
  | connectInterrupted
  | accept
  | input (g : Segment) (clk : Clock)
  | icmpError (seq : Seq) (type code : ℕ)
  | timers (now : ℕ)
  | send (clk : Clock)
  | write (bytes : List UInt8) (kmalloc : Option Memory)
  | read (len : ℕ) (kmalloc : Option Memory)
  | shutdown
  | close (now : ℕ)
  | listenerClosed (now : ℕ)

/-- Does `find_connection` see a connection in this slot? -/
def Socket.connected (s : Socket) : Bool := s.used && s.state ≠ .closed && s.state ≠ .listen

theorem Socket.connected_iff {s : Socket} : s.connected = true ↔
    s.used = true ∧ s.state ≠ .closed ∧ s.state ≠ .listen := by
  simp [connected, and_assoc]

def Socket.held (s : Socket) : Bool := s.used && s.userOpen

/-- Counted from the oldest byte in the send ring. -/
def Conn.posOf (c : Conn) (seq : Seq) : ℕ :=
  c.written.length - c.sock.snd.txLen + (seq - c.sock.snd.sndUna).toNat

def emitted (c : Conn) : Event → Option OutSegment
  | .send clk => (sendWhatIsDue c.sock clk).bind (·.segment)
  | _ => none

def Conn.fresh (c : Conn) (s : Option Socket) : Conn :=
  match s with
  | some s => ⟨s, [], [], []⟩
  | none => c

def step (c : Conn) : Event → Conn
  | .tcpOpen tx rx refuseSack =>
    if c.sock.used then c else c.fresh (tcpOpen tx rx refuseSack)
  | .acceptSyn listener localPort src g tx rx refuseSack iss =>
    if c.sock.used then c
    else c.fresh (acceptSyn listener localPort src g tx rx refuseSack iss)
  | .bind port => if c.sock.held then { c with sock := tcpBind c.sock port } else c
  | .listen backlog => if c.sock.held then { c with sock := tcpListen c.sock backlog } else c
  | .connect ip remotePort port iss =>
    if c.sock.held then
      let s := tcpConnect c.sock ip remotePort port iss
      if s.state = .synSent ∧ c.sock.state ≠ .synSent then ⟨s, [], [], []⟩ else { c with sock := s }
    else c
  | .connectInterrupted =>
    if c.sock.held then { c with sock := connectInterrupted c.sock } else c
  | .accept => if c.sock.used then { c with sock := tcpAccept c.sock } else c
  | .input g clk => if c.sock.connected then { c with sock := tcpInput c.sock g clk } else c
  | .icmpError seq type code =>
    if c.sock.connected then { c with sock := tcpIcmpError c.sock seq type code } else c
  | .timers now => if c.sock.used then { c with sock := runTimers c.sock now } else c
  | .send clk =>
    -- a section that never ends changes nothing any more
    match sendWhatIsDue c.sock clk with
    | none => c
    | some r =>
      { c with
        sock := r.sock
        sent := c.sent ++ r.segment.toList.map fun g => ⟨g, c.posOf g.seq⟩ }
  | .write bytes kmalloc =>
    if c.sock.held then
      let r := tcpWrite c.sock bytes kmalloc
      { c with sock := r.1, written := c.written ++ bytes.take r.2 }
    else c
  | .read len kmalloc =>
    if c.sock.held then
      let r := tcpRead c.sock len kmalloc
      { c with sock := r.1, received := c.received ++ r.2 }
    else c
  | .shutdown => if c.sock.held then { c with sock := tcpShutdown c.sock } else c
  | .close now => if c.sock.held then { c with sock := tcpClose c.sock now } else c
  | .listenerClosed now => if c.sock.used then { c with sock := listenerClosed c.sock now } else c

/-! ### What an event can do -/

theorem Socket.held_iff : s.held = true ↔ s.used = true ∧ s.userOpen = true := by
  simp [Socket.held]

/-- Does `tcp_connect` pass its checks on this socket? -/
def connects (s : Socket) (port : BitVec 16) : Bool :=
  s.held && s.state = .closed && s.error = 0 && !(s.localPort = 0 && port = 0)

theorem tcpConnect_of_not (hh : s.held = true) (hc : connects s port = false) :
    tcpConnect s ip remotePort port iss = s := by
  unfold tcpConnect
  by_cases h1 : s.state ≠ .closed ∨ s.error ≠ 0
  · rw [if_pos h1]
  · rw [if_neg h1]
    simp only [not_or, not_not] at h1
    simp only [connects, hh, h1.1, h1.2, decide_true, Bool.and_self, Bool.true_and,
      Bool.not_eq_false', Bool.and_eq_true, decide_eq_true_eq] at hc
    rw [if_pos hc]

theorem tcpConnect_of_connects (hc : connects s port = true) :
    tcpConnect s ip remotePort port iss =
      { s with
        localPort := if s.localPort = 0 then port else s.localPort
        remoteIp := ip
        remotePort := remotePort
        snd := startSequence s.snd iss
        state := .synSent } := by
  simp only [connects, Bool.and_eq_true, decide_eq_true_eq, Bool.not_eq_true',
    Bool.and_eq_false_iff, decide_eq_false_iff_not] at hc
  obtain ⟨⟨⟨-, hst⟩, he⟩, hport⟩ := hc
  have h1 : ¬(s.state ≠ .closed ∨ s.error ≠ 0) := by simp [hst, he]
  have h2 : ¬(s.localPort = 0 ∧ port = 0) := by tauto
  rw [tcpConnect, if_neg h1, if_neg h2]

theorem connects_ready (hc : connects s port = true) :
    s.held = true ∧ s.state = .closed ∧ s.error = 0 := by
  simp only [connects, Bool.and_eq_true, decide_eq_true_eq] at hc
  exact ⟨hc.1.1.1, hc.1.1.2, hc.1.2⟩

theorem step_connect (hc : connects c.sock port = true) :
    step c (.connect ip remotePort port iss) =
      ⟨tcpConnect c.sock ip remotePort port iss, [], [], []⟩ := by
  have hh := connects_ready hc
  have hnew : (tcpConnect c.sock ip remotePort port iss).state = .synSent ∧
      c.sock.state ≠ .synSent := by
    rw [tcpConnect_of_connects hc, hh.2.1]
    exact ⟨rfl, by decide⟩
  simp only [step, if_pos hh.1, if_pos hnew]

def State.past : State → Bool
  | .closed | .listen | .synSent | .synReceived => false
  | _ => true

theorem State.past_iff {st : State} : st.past = true ↔
    st ≠ .closed ∧ st ≠ .listen ∧ st ≠ .synSent ∧ st ≠ .synReceived := by
  cases st <;> simp [State.past]

/-- Where a connection goes on once its FIN is queued. -/
def State.Ends (st st' : State) : Prop :=
  st = .established ∧ st' = .finWait1 ∨ st = .closeWait ∧ st' = .lastAck

theorem State.Ends.past {st st' : State} (h : st.Ends st') : st.past = true ∧ st'.past = true := by
  rcases h with ⟨rfl, rfl⟩ | ⟨rfl, rfl⟩ <;> exact ⟨rfl, rfl⟩

/-- What the sections do that neither begin a connection nor move its data. -/
inductive Calls (s : Socket) : Event → Socket → Prop
  | same (e : Event) : Calls s e s
  | gone (e : Event) : Calls s e Socket.zero
  | noted (e : Event) (port : BitVec 16) (softError : ℕ) :
      Calls s e { s with localPort := port, softError := softError }
  | failed (e : Event) {error : ℕ} (he : error ≠ 0) (retries : ℕ) (pending : Bool)
      (hl : s.listener.isSome = false ∨ s.userOpen = true) :
      Calls s e
        { s with
          error := error
          state := .closed
          tmr := { s.tmr with rtoDeadline := 0, retries := retries }
          rcv := { s.rcv with ackPending := pending } }
  | listening (backlog : ℕ) (ho : s.userOpen = true) (hst : s.state = .closed) (he : s.error = 0) :
      Calls s (.listen backlog) { s with state := .listen, backlog := backlog }
  | accepted (hl : s.listener.isSome = true) (hst : s.state = .established ∨ s.state = .closeWait) :
      Calls s .accept { s with listener := none, userOpen := true }
  | reaped (now : ℕ) (hreap : s.tmr.reapDeadline ≠ 0) (ho : s.userOpen = true) :
      Calls s (.timers now)
        { s with state := .closed, tmr := { s.tmr with reapDeadline := 0, rtoDeadline := 0 } }
  | idle (now : ℕ) (huna : s.snd.sndUna = s.snd.sndMax) :
      Calls s (.timers now) { s with tmr := { s.tmr with rtoDeadline := 0 } }
  | timeout (now : ℕ) (huna : s.snd.sndUna ≠ s.snd.sndMax) {rto : ℕ}
      (hrto : rto = if s.tmr.rto * 2 > rtoMax then rtoMax else s.tmr.rto * 2) :
      Calls s (.timers now)
        { s with
          snd := goBack s.snd (s.tmr.retries + 1 = 1)
          tmr := { s.tmr with
            retries := s.tmr.retries + 1
            timing := false
            rto := rto
            rtoDeadline := now + rto } }
  | shutdown {st : State} (ho : s.userOpen = true) (hst : s.state.Ends st) :
      Calls s .shutdown { s with state := st, snd := { s.snd with finQueued := true } }
  | closeFin (now deadline : ℕ) {st : State} (ho : s.userOpen = true) (hst : s.state.Ends st) :
      Calls s (.close now)
        { s with
          userOpen := false
          state := st
          snd := { s.snd with finQueued := true }
          rcv := { s.rcv with rxLen := 0, ooo := [] }
          tmr := { s.tmr with reapDeadline := deadline } }
  | close (now deadline : ℕ) {st : State} (ho : s.userOpen = true) (hst : s.state = st)
      (hp : st.past = true) :
      Calls s (.close now)
        { s with
          userOpen := false
          state := st
          rcv := { s.rcv with rxLen := 0, ooo := [] }
          tmr := { s.tmr with reapDeadline := deadline } }
  | leftFin (now deadline : ℕ) {st : State} (hl : s.listener.isSome = true)
      (hst : s.state.Ends st) :
      Calls s (.listenerClosed now)
        { s with
          listener := none
          state := st
          snd := { s.snd with finQueued := true }
          tmr := { s.tmr with reapDeadline := deadline } }
  | left (now deadline : ℕ) (hl : s.listener.isSome = true) (hst : s.state = .synReceived) :
      Calls s (.listenerClosed now)
        { s with
          listener := none
          state := .synReceived
          tmr := { s.tmr with reapDeadline := deadline } }

theorem abortConnection_calls (e : Event) {error : ℕ} (he : error ≠ 0) (retries : ℕ) :
    Calls s e (abortConnection { s with tmr := { s.tmr with retries := retries } } error) := by
  unfold abortConnection
  split_ifs with hz
  · exact .gone e
  · rw [Bool.or_eq_true, not_or, Bool.not_eq_true] at hz
    exact .failed (s := s) e he retries false (.inl hz.1)

theorem Calls.abort (e : Event) {error : ℕ} (he : error ≠ 0) :
    Calls s e (abortConnection s error) :=
  abortConnection_calls e he s.tmr.retries

theorem runTimers_calls (s : Socket) (now : ℕ) : Calls s (.timers now) (runTimers s now) := by
  unfold runTimers
  split_ifs with hreap hopen hrto huna
  · exact .reaped now hreap.1 hopen
  · exact .gone _
  · exact .idle now huna
  · unfold retransmitTimeout
    by_cases hretry : s.tmr.retries + 1 > maxRetries
    · rw [if_pos hretry]
      refine abortConnection_calls _ ?_ _
      split_ifs with h0
      · exact h0
      · decide
    · rw [if_neg hretry]
      exact .timeout now huna rfl
  · exact .same _

theorem tcpIcmpError_calls (e : Event) (seq : Seq) (type code : ℕ) :
    Calls s e (tcpIcmpError s seq type code) := by
  unfold tcpIcmpError
  split_ifs
  · exact .abort e (by decide)
  · exact .abort e (by decide)
  · exact .noted e s.localPort _
  · exact .noted e s.localPort _
  · exact .same e
  · exact .same e

theorem tcpShutdown_calls (ho : s.userOpen = true) : Calls s .shutdown (tcpShutdown s) := by
  unfold tcpShutdown
  cases hst : s.state with
  | established => exact .shutdown ho (.inl ⟨hst, rfl⟩)
  | closeWait => exact .shutdown ho (.inr ⟨hst, rfl⟩)
  | _ => exact .same _

theorem tcpClose_calls (ho : s.userOpen = true) (now : ℕ) :
    Calls s (.close now) (tcpClose s now) := by
  unfold tcpClose
  simp only
  cases hst : s.state with
  | established => exact .closeFin now _ ho (.inl ⟨hst, rfl⟩)
  | closeWait => exact .closeFin now _ ho (.inr ⟨hst, rfl⟩)
  | closed | listen | synSent | synReceived => exact .gone _
  | _ => exact .close now _ ho hst rfl

theorem listenerClosed_calls (s : Socket) (now : ℕ) :
    Calls s (.listenerClosed now) (listenerClosed s now) := by
  unfold listenerClosed
  split_ifs with hl
  · simp only
    cases hst : s.state with
    | established => exact .leftFin now _ hl (.inl ⟨hst, rfl⟩)
    | closeWait => exact .leftFin now _ hl (.inr ⟨hst, rfl⟩)
    | synReceived => exact .left now _ hl hst
    | _ => exact .gone _
  · exact .same _

/-- An event does nothing, or what its critical section does where it finds the slot ready. -/
inductive Acts (c : Conn) : Event → Conn → Prop
  | nothing (e : Event) : Acts c e c
  | tcpOpen {tx rx : Option Memory} {refuseSack : Bool} {s : Socket}
      (hs : tcpOpen tx rx refuseSack = some s) :
      Acts c (.tcpOpen tx rx refuseSack) ⟨s, [], [], []⟩
  | acceptSyn {listener : ℕ} {localPort : BitVec 16} {src : BitVec 32} {g : Segment}
      {tx rx : Option Memory} {refuseSack : Bool} {iss : Seq} {s : Socket}
      (hs : acceptSyn listener localPort src g tx rx refuseSack iss = some s) :
      Acts c (.acceptSyn listener localPort src g tx rx refuseSack iss) ⟨s, [], [], []⟩
  | connect (ip : BitVec 32) (remotePort port : BitVec 16) (iss : Seq)
      (hc : connects c.sock port = true) :
      Acts c (.connect ip remotePort port iss)
        ⟨tcpConnect c.sock ip remotePort port iss, [], [], []⟩
  | input (g : Segment) (clk : Clock) (hu : c.sock.connected = true) :
      Acts c (.input g clk) { c with sock := tcpInput c.sock g clk }
  | send {clk : Clock} {r : SendResult} (hs : sendWhatIsDue c.sock clk = some r) :
      Acts c (.send clk)
        { c with
          sock := r.sock
          sent := c.sent ++ r.segment.toList.map fun g => ⟨g, c.posOf g.seq⟩ }
  | write (bytes : List UInt8) (kmalloc : Option Memory) (hu : c.sock.used = true) :
      Acts c (.write bytes kmalloc)
        { c with
          sock := (tcpWrite c.sock bytes kmalloc).1
          written := c.written ++ bytes.take (tcpWrite c.sock bytes kmalloc).2 }
  | read (len : ℕ) (kmalloc : Option Memory) (hu : c.sock.used = true) :
      Acts c (.read len kmalloc)
        { c with
          sock := (tcpRead c.sock len kmalloc).1
          received := c.received ++ (tcpRead c.sock len kmalloc).2 }
  | calls {e : Event} {t : Socket} (hu : c.sock.used = true) (hc : Calls c.sock e t) :
      Acts c e { c with sock := t }

theorem Acts.ite {ready : Bool} (h : ready = true → Acts c e c') :
    Acts c e (if ready then c' else c) := by
  split_ifs with hr
  · exact h hr
  · exact .nothing e

theorem Acts.owner (h : c.sock.used = true → c.sock.userOpen = true → Acts c e c') :
    Acts c e (if c.sock.held then c' else c) :=
  .ite fun hh => h (Socket.held_iff.1 hh).1 (Socket.held_iff.1 hh).2

theorem Acts.fresh {new : Option Socket} (h : ∀ s, new = some s → Acts c e ⟨s, [], [], []⟩) :
    Acts c e (if c.sock.used then c else c.fresh new) := by
  split_ifs
  · exact .nothing e
  · cases new with
    | none => exact .nothing e
    | some s => exact h s rfl

theorem step_acts (c : Conn) (e : Event) : Acts c e (step c e) := by
  cases e with
  | tcpOpen tx rx refuseSack => exact .fresh fun _ => .tcpOpen
  | acceptSyn listener localPort src g tx rx refuseSack iss => exact .fresh fun _ => .acceptSyn
  | bind port =>
    refine .owner fun hu _ => .calls hu ?_
    unfold tcpBind
    split_ifs
    · exact .same _
    · exact .noted _ port c.sock.softError
  | listen backlog =>
    refine .owner fun hu ho => .calls hu ?_
    unfold tcpListen
    split_ifs with hc
    · exact .same _
    · simp only [not_or, not_not] at hc
      exact .listening backlog ho hc.1 hc.2.2
  | connect ip remotePort port iss =>
    cases hc : connects c.sock port with
    | true =>
      rw [step_connect hc]
      exact .connect ip remotePort port iss hc
    | false =>
      simp only [step]
      split_ifs with hh h0
      · rw [tcpConnect_of_not hh hc] at h0
        exact absurd h0.1 h0.2
      · rw [tcpConnect_of_not hh hc]
        exact .nothing _
      · exact .nothing _
  | connectInterrupted =>
    refine .owner fun hu ho => .calls hu ?_
    unfold connectInterrupted
    split_ifs
    · exact .failed _ (by decide) c.sock.tmr.retries c.sock.rcv.ackPending (.inr ho)
    · exact .same _
  | accept =>
    refine .ite fun hu => .calls hu ?_
    unfold tcpAccept
    split_ifs with hc
    · exact .accepted hc.1 hc.2
    · exact .same _
  | input g clk => exact .ite (.input g clk)
  | icmpError seq type code =>
    exact .ite fun hc => .calls (Socket.connected_iff.1 hc).1 (tcpIcmpError_calls _ seq type code)
  | timers now => exact .ite fun hu => .calls hu (runTimers_calls _ now)
  | send clk =>
    simp only [step]
    cases hs : sendWhatIsDue c.sock clk with
    | none => exact .nothing _
    | some r => exact .send hs
  | write bytes kmalloc => exact .owner fun hu _ => .write bytes kmalloc hu
  | read len kmalloc => exact .owner fun hu _ => .read len kmalloc hu
  | shutdown => exact .owner fun hu ho => .calls hu (tcpShutdown_calls ho)
  | close now => exact .owner fun hu ho => .calls hu (tcpClose_calls ho now)
  | listenerClosed now => exact .ite fun hu => .calls hu (listenerClosed_calls _ now)

attribute [grind =] State.past

end Bashket.Tcp
