import Bashket.Lib.Run

/-!
# The terminal in line mode

Keys wait in the keyboard's buffer. A task that reads the terminal, or polls it, takes them out one
at a time and puts each through the line discipline (`tty_input`), until a line is complete.
`tty_lock` is not held between taking a key and putting it in: two tasks may put theirs in in the
other order (`keys_change_places`), and a key put in while a line waits for its reader is dropped.
Where that does not happen readers get the lines one reader alone would get (`lines_in_order`).
-/

namespace Bashket.Tty

open Run List

abbrev ttyLineMax : ℕ := 256

/-- `CTRL_D`, `CTRL_U`, `DEL` -/
def ctrlD : UInt8 := 0x04
def ctrlU : UInt8 := 0x15
def del : UInt8 := 0x7F

/-- `input_escape`: text, an ESC was seen, inside ESC [ ... -/
inductive Escape
  | text
  | esc
  | sequence
deriving DecidableEq

/-- The line being collected; `pos`: what readers have got of it; `echoed`: what was shown. -/
structure Line where
  line : List UInt8
  pos : ℕ
  ready : Bool
  escape : Escape
  echoed : List UInt8
deriving DecidableEq

def rubOut : List UInt8 := [0x08, 0x20, 0x08]

def Line.ttyInput (l : Line) (c : UInt8) : Line :=
  -- the previous line is still waiting for a reader
  if l.ready then l
  else if l.escape = .esc then { l with escape := if c = 0x5B then .sequence else .text }
  else if l.escape = .sequence then
    if 0x40 ≤ c ∧ c ≤ 0x7E then { l with escape := .text } else l
  else if c = 0x1B then { l with escape := .esc }
  else if c = 0x0A ∨ c = 0x0D then
    { l with line := l.line ++ [0x0A], echoed := l.echoed ++ [0x0A], ready := true }
  else if c = ctrlD then { l with ready := true }
  else if c = 0x08 ∨ c = del then
    if 0 < l.line.length then { l with line := l.line.dropLast, echoed := l.echoed ++ rubOut }
    else l
  else if c = ctrlU then
    { l with line := [], echoed := l.echoed ++ (l.line.map fun _ => rubOut).flatten }
  else if c < 0x20 ∧ c ≠ 0x09 then l
  else if l.line.length < ttyLineMax - 1 then
    { l with line := l.line ++ [c], echoed := l.echoed ++ [c] }
  else l

def Line.next (l : Line) : Line := { l with line := [], pos := 0, ready := false }

inductive Pc
  | idle
  /-- `tty_read` before it takes `tty_lock` and looks -/
  | read (count : ℕ)
  /-- in `keyboard_getchar` -/
  | getchar (count : ℕ)
  | key (count : ℕ) (c : UInt8)
  /-- the same points of `tty_poll` -/
  | poll
  | tryGetchar
  | pollKey (c : UInt8)
deriving DecidableEq

/-- `typed` are all keys so far; `lines` and `part` are what readers have got: whole lines, and the
first bytes of the next one. -/
structure State where
  buffer : List UInt8
  line : Line
  pc : ℕ → Pc
  typed : List UInt8
  lines : List (List UInt8)
  part : List UInt8

inductive Event
  | type (c : UInt8)
  /-- `tty_read` and `tty_poll` are called -/
  | read (t count : ℕ)
  | poll (t : ℕ)
  | look (t : ℕ)
  | take (t : ℕ)
  | interrupt (t : ℕ)
  /-- `tty_input` -/
  | input (t : ℕ)

def Pc.held : Pc → Option UInt8
  | .key _ c | .pollKey c => some c
  | _ => none

namespace State

variable (s : State)

def goto (t : ℕ) (pc : Pc) : State := { s with pc := Function.update s.pc t pc }

/-- `tty_read` of at most `count` bytes when a line is ready. -/
def deliver (count : ℕ) : State :=
  let bytes := (s.line.line.drop s.line.pos).take count
  let pos := s.line.pos + bytes.length
  if pos = s.line.line.length then
    { s with line := s.line.next, lines := s.lines ++ [s.part ++ bytes], part := [] }
  else { s with line := { s.line with pos }, part := s.part ++ bytes }

/-- One that cannot happen changes nothing. -/
def step : Event → State
  | .type c => if c = 0 then s else { s with buffer := s.buffer ++ [c], typed := s.typed ++ [c] }
  | .read t count =>
    match s.pc t with
    | .idle => if count = 0 then s else s.goto t (.read count)
    | _ => s
  | .poll t =>
    match s.pc t with
    | .idle => s.goto t .poll
    | _ => s
  | .look t =>
    match s.pc t with
    | .read count =>
      if s.line.ready then (s.deliver count).goto t .idle else s.goto t (.getchar count)
    | .poll => if s.line.ready then s.goto t .idle else s.goto t .tryGetchar
    | _ => s
  | .take t =>
    match s.pc t, s.buffer with
    | .getchar count, c :: rest => { s with buffer := rest }.goto t (.key count c)
    | .tryGetchar, c :: rest => { s with buffer := rest }.goto t (.pollKey c)
    | .tryGetchar, [] => s.goto t .idle
    | _, _ => s
  | .interrupt t =>
    match s.pc t with
    | .getchar _ => s.goto t .idle
    | _ => s
  | .input t =>
    match s.pc t with
    | .key count c => { s with line := s.line.ttyInput c }.goto t (.read count)
    | .pollKey c => { s with line := s.line.ttyInput c }.goto t .poll
    | _ => s

end State

/-- `tty_init` -/
def Line.init : Line where
  line := []
  pos := 0
  ready := false
  escape := .text
  echoed := []

def start : State where
  buffer := []
  line := .init
  pc _ := .idle
  typed := []
  lines := []
  part := []

/-! ### What is to hold -/

/-- One reader alone puts a key in, and takes the line if that completes it. -/
def aloneStep (x : Line × List (List UInt8)) (c : UInt8) : Line × List (List UInt8) :=
  let l := x.1.ttyInput c
  if l.ready then (l.next, x.2 ++ [l.line]) else (l, x.2)

/-- The line and the lines so far of one reader alone that puts all keys in, one at a time. -/
def alone (keys : List UInt8) : Line × List (List UInt8) := keys.foldl aloneStep (.init, [])

namespace State

variable (s : State)

/-- The lines so far: those that readers have got, and the one that waits for them. -/
def allLines : List (List UInt8) := s.lines ++ if s.line.ready then [s.line.line] else []

/-- The lines are those that one reader alone gets from the keys, all of them if no task has a key.
What readers have got of the line that waits are its first bytes. -/
structure InOrder : Prop where
  lines : s.allLines <+: (alone s.typed).2
  all : (∀ t, (s.pc t).held = none) →
    ∃ keys, s.typed = keys ++ s.buffer ∧ s.allLines = (alone keys).2
  part : s.part <+: s.line.line

def takesKey (t : ℕ) : Bool :=
  match s.pc t, s.buffer with
  | .getchar _, _ :: _ | .tryGetchar, _ :: _ => true
  | _, _ => false

/-- A key is only taken when no task has one and no line waits for a reader. -/
def Apart (e : Event) : Prop :=
  ∀ t, e = .take t → s.takesKey t → (∀ u, (s.pc u).held = none) ∧ s.line.ready = false

end State

/-! ### One reader alone -/

theorem aloneStep_grows (x : Line × List (List UInt8)) (c : UInt8) :
    x.2 <+: (aloneStep x c).2 := by
  unfold aloneStep
  dsimp only
  split
  · exact prefix_append ..
  · exact prefix_rfl

theorem foldl_aloneStep_grows (x : Line × List (List UInt8)) (keys : List UInt8) :
    x.2 <+: (keys.foldl aloneStep x).2 := by
  induction keys generalizing x with
  | nil => exact prefix_rfl
  | cons c keys ih => exact (aloneStep_grows x c).trans (ih _)

theorem alone_prefix (keys rest : List UInt8) : (alone keys).2 <+: (alone (keys ++ rest)).2 := by
  unfold alone
  rw [foldl_append]
  exact foldl_aloneStep_grows ..

theorem alone_concat (keys : List UInt8) (c : UInt8) :
    alone (keys ++ [c]) = aloneStep (alone keys) c := by
  unfold alone
  rw [foldl_append]
  rfl

theorem pos_ttyInput (l : Line) (c : UInt8) : (l.ttyInput c).pos = l.pos := by
  unfold Line.ttyInput
  repeat' split
  all_goals rfl

/-! ### The invariant -/

namespace State

/-- What one reader alone has after the keys `keys` is what there is here, the line that waits taken
out. -/
def Agrees (s : State) (keys : List UInt8) : Prop :=
  alone keys = if s.line.ready then (s.line.next, s.lines ++ [s.line.line]) else (s.line, s.lines)

structure Inv (s : State) : Prop where
  one : ∀ t u c d, (s.pc t).held = some c → (s.pc u).held = some d → t = u
  free : (∀ t, (s.pc t).held = none) → ∃ keys, s.typed = keys ++ s.buffer ∧ s.Agrees keys
  held : ∀ t c, (s.pc t).held = some c →
    s.line.ready = false ∧ ∃ keys, s.typed = keys ++ c :: s.buffer ∧ s.Agrees keys
  part : s.part = s.line.line.take s.line.pos
  pos : s.line.ready = false → s.line.pos = 0

variable {s : State} {t : ℕ}

theorem start_inv : start.Inv where
  one _ _ _ _ h := nomatch h
  free _ := ⟨[], rfl, rfl⟩
  held _ _ h := nomatch h
  part := rfl
  pos _ := rfl

theorem Agrees.allLines {keys : List UInt8} (h : s.Agrees keys) : s.allLines = (alone keys).2 := by
  rw [h]
  unfold State.allLines
  split
  · rfl
  · exact append_nil _

theorem Inv.inOrder (h : s.Inv) : s.InOrder where
  lines := by
    by_cases hheld : ∃ t c, (s.pc t).held = some c
    · obtain ⟨t, c, htc⟩ := hheld
      obtain ⟨-, keys, htyped, hagree⟩ := h.held t c htc
      rw [htyped, hagree.allLines]
      exact alone_prefix ..
    · obtain ⟨keys, htyped, hagree⟩ := h.free fun t => by
        cases hc : (s.pc t).held with
        | none => rfl
        | some c => exact absurd ⟨t, c, hc⟩ hheld
      rw [htyped, hagree.allLines]
      exact alone_prefix ..
  all hno := by
    obtain ⟨keys, htyped, hagree⟩ := h.free hno
    exact ⟨keys, htyped, hagree.allLines⟩
  part := by
    rw [h.part]
    exact take_prefix ..

@[simp] theorem pc_goto_self (s : State) (t : ℕ) (pc : Pc) : (s.goto t pc).pc t = pc :=
  Function.update_self ..

theorem pc_goto_of_ne {u : ℕ} (hne : u ≠ t) (pc : Pc) : (s.goto t pc).pc u = s.pc u :=
  Function.update_of_ne hne ..

/-! ### Steps -/

theorem Inv.goto (h : s.Inv) {pc : Pc} (hold : (s.pc t).held = none) (hpc : pc.held = none) :
    (s.goto t pc).Inv := by
  have hheld : ∀ u, ((s.goto t pc).pc u).held = (s.pc u).held := by
    intro u
    rcases eq_or_ne u t with rfl | hne
    · rw [pc_goto_self, hpc, hold]
    · rw [pc_goto_of_ne hne]
  refine ⟨?_, ?_, ?_, h.part, h.pos⟩
  · simp only [hheld]
    exact h.one
  · simp only [hheld]
    exact h.free
  · simp only [hheld]
    exact h.held

theorem Inv.type (h : s.Inv) (c : UInt8) :
    { s with buffer := s.buffer ++ [c], typed := s.typed ++ [c] }.Inv := by
  refine ⟨h.one, fun hno => ?_, fun t d htd => ?_, h.part, h.pos⟩
  · obtain ⟨keys, htyped, hagree⟩ := h.free hno
    exact ⟨keys, by simp [htyped], hagree⟩
  · obtain ⟨hready, keys, htyped, hagree⟩ := h.held t d htd
    exact ⟨hready, keys, by simp [htyped], hagree⟩

theorem Inv.no_key (h : s.Inv) (hready : s.line.ready = true) (t : ℕ) : (s.pc t).held = none := by
  cases hc : (s.pc t).held with
  | none => rfl
  | some c =>
    have := (h.held t c hc).1
    rw [hready] at this
    cases this

theorem Inv.deliver (h : s.Inv) (hready : s.line.ready = true) (count : ℕ) :
    (s.deliver count).Inv := by
  obtain ⟨keys, htyped, hagree⟩ := h.free (h.no_key hready)
  have hpart := h.part
  unfold State.deliver
  dsimp only
  split
  next hend =>
    have hrest : (s.line.line.drop s.line.pos).take count = s.line.line.drop s.line.pos := by
      apply take_of_length_le
      rw [length_take, length_drop] at hend
      rw [length_drop]
      omega
    have hline : s.part ++ (s.line.line.drop s.line.pos).take count = s.line.line := by
      rw [hrest, hpart]
      exact take_append_drop ..
    have hno : ∀ t, (s.pc t).held = none := h.no_key hready
    refine ⟨h.one, fun _ => ⟨keys, htyped, ?_⟩, fun t c htc => ?_, rfl, fun _ => rfl⟩
    · unfold Agrees at hagree ⊢
      rw [hagree, if_pos hready, hline]
      rfl
    · change (s.pc t).held = some c at htc
      rw [hno t] at htc
      cases htc
  next hmore =>
    have hno : ∀ t, (s.pc t).held = none := h.no_key hready
    refine ⟨h.one, fun _ => ⟨keys, htyped, ?_⟩, fun t c htc => ?_, ?_, fun hr => ?_⟩
    · unfold Agrees at hagree ⊢
      rw [hagree, if_pos hready]
      exact (if_pos hready).symm
    · change (s.pc t).held = some c at htc
      rw [hno t] at htc
      cases htc
    · dsimp only
      rw [hpart, take_add, length_take, ← take_take, take_length]
    · change s.line.ready = false at hr
      rw [hready] at hr
      cases hr

theorem Inv.take (h : s.Inv) {c : UInt8} {rest : List UInt8} {pc : Pc}
    (hbuffer : s.buffer = c :: rest) (hpc : pc.held = some c)
    (hfree : ∀ u, (s.pc u).held = none) (hready : s.line.ready = false) :
    ({ s with buffer := rest }.goto t pc).Inv := by
  obtain ⟨keys, htyped, hagree⟩ := h.free hfree
  have hself : ∀ {u d}, (({ s with buffer := rest }.goto t pc).pc u).held = some d →
      u = t ∧ d = c := by
    intro u d hu
    rcases eq_or_ne u t with rfl | hne
    · rw [pc_goto_self, hpc] at hu
      exact ⟨rfl, (Option.some.inj hu).symm⟩
    · rw [pc_goto_of_ne hne] at hu
      rw [show (s.pc u).held = _ from hfree u] at hu
      cases hu
  refine ⟨fun u v c d hu hv => ?_, fun hno => ?_, fun u d hu => ?_, h.part, h.pos⟩
  · rw [(hself hu).1, (hself hv).1]
  · have := hno t
    rw [pc_goto_self, hpc] at this
    cases this
  · obtain ⟨-, rfl⟩ := hself hu
    refine ⟨hready, keys, ?_, hagree⟩
    change s.typed = keys ++ d :: rest
    rw [htyped, hbuffer]

theorem Inv.input (h : s.Inv) {c : UInt8} {pc : Pc} (hheld : (s.pc t).held = some c)
    (hpc : pc.held = none) : ({ s with line := s.line.ttyInput c }.goto t pc).Inv := by
  obtain ⟨hready, keys, htyped, hagree⟩ := h.held t c hheld
  have hno : ∀ u, (({ s with line := s.line.ttyInput c }.goto t pc).pc u).held = none := by
    intro u
    rcases eq_or_ne u t with rfl | hne
    · rw [pc_goto_self, hpc]
    · rw [pc_goto_of_ne hne]
      cases hd : (s.pc u).held with
      | none => rfl
      | some d => exact absurd (h.one u t d c hd hheld) hne
  have hpos : (s.line.ttyInput c).pos = 0 := by rw [pos_ttyInput, h.pos hready]
  refine ⟨fun u v d e hu => ?_, fun _ => ⟨keys ++ [c], ?_, ?_⟩, fun u d hu => ?_, ?_, fun _ => hpos⟩
  · rw [hno u] at hu
    cases hu
  · change s.typed = _
    rw [htyped, append_assoc]
    rfl
  · unfold Agrees at hagree ⊢
    rw [alone_concat, hagree, if_neg (by rw [hready]; exact nofun)]
    rfl
  · rw [hno u] at hu
    cases hu
  · change s.part = (s.line.ttyInput c).line.take (s.line.ttyInput c).pos
    rw [hpos, h.part, h.pos hready]
    rfl

theorem Inv.step (h : s.Inv) {e : Event} (he : s.Apart e) : (s.step e).Inv := by
  cases e with
  | type c =>
    simp only [State.step]
    split
    · exact h
    · exact h.type c
  | read t count =>
    simp only [State.step]
    split
    next hpc =>
      split
      · exact h
      · exact h.goto (by rw [hpc]; rfl) rfl
    · exact h
  | poll t | interrupt t =>
    simp only [State.step]
    split
    next hpc => exact h.goto (by rw [hpc]; rfl) rfl
    · exact h
  | look t =>
    simp only [State.step]
    split
    next count hpc =>
      split
      next hready =>
        refine (h.deliver hready count).goto ?_ rfl
        have hpc' : (s.deliver count).pc = s.pc := by
          simp only [State.deliver]
          split <;> rfl
        rw [hpc', hpc]
        rfl
      · exact h.goto (by rw [hpc]; rfl) rfl
    next hpc =>
      split
      · exact h.goto (by rw [hpc]; rfl) rfl
      · exact h.goto (by rw [hpc]; rfl) rfl
    · exact h
  | take t =>
    simp only [State.step]
    split
    next count c rest hpc hbuffer =>
      obtain ⟨hfree, hready⟩ := he t rfl (by simp [takesKey, hpc, hbuffer])
      exact h.take hbuffer rfl hfree hready
    next c rest hpc hbuffer =>
      obtain ⟨hfree, hready⟩ := he t rfl (by simp [takesKey, hpc, hbuffer])
      exact h.take hbuffer rfl hfree hready
    next hpc _ => exact h.goto (by rw [hpc]; rfl) rfl
    · exact h
  | input t =>
    simp only [State.step]
    split
    next hpc => exact h.input (by rw [hpc]; rfl) rfl
    next hpc => exact h.input (by rw [hpc]; rfl) rfl
    · exact h

end State

/-! ### Runs -/

/-- If keys are only taken when no task has one and no line waits, readers get the lines that one
reader alone would get. -/
theorem lines_in_order (es : List Event) (h : Along State.step State.Apart start es) :
    Always State.step State.InOrder start es := by
  have hinv : Always State.step State.Inv start es :=
    always_of_induction (fun _ _ hI he => hI.step he) State.start_inv h
  exact hinv.mono fun _ hI => hI.inOrder

/-- A reader and a poller take turns with two keys; the reader gets the line in two parts. -/
def readAndPoll : List Event :=
  [.type 0x61, .type 0x0A, .read 0 1, .look 0, .take 0, .input 0, .poll 1, .look 1, .take 1,
    .input 1, .look 0, .read 0 5, .look 0]

theorem lines_in_order_readAndPoll :
    Along State.step State.Apart start readAndPoll ∧
      Always State.step State.InOrder start readAndPoll := by
  have hapart : Along State.step State.Apart start readAndPoll := by
    refine ⟨nofun, nofun, nofun, nofun, fun _ _ _ => ⟨?_, rfl⟩, nofun, nofun, nofun,
      fun _ _ _ => ⟨?_, rfl⟩, nofun, nofun, nofun, nofun, trivial⟩
    all_goals
      intro u
      match u with
      | 0 | 1 | _ + 2 => rfl
  exact ⟨hapart, lines_in_order _ hapart⟩

/-- Two readers each take a key; the second one puts its key in first. -/
def twoReaders : List Event :=
  [.type 0x61, .type 0x62, .type 0x0A, .read 0 9, .look 0, .read 1 9, .look 1, .take 0, .take 1,
    .input 1, .input 0, .look 0, .take 0, .input 0, .look 0]

/-- Then the line has its keys in the other order. -/
theorem keys_change_places : ¬ (run State.step start twoReaders).InOrder := by
  intro h
  have hlines : [[0x62, 0x61, 0x0A]] <+: (alone [0x61, 0x62, 0x0A]).2 := h.lines
  exact absurd hlines (by decide)

end Bashket.Tty
