import Bashket.Proc.Delivery
import Bashket.Lib.Words

/-!
# Signal frames

To run a handler `signal_deliver` writes a frame with the interrupted state on the user stack, and
`signal_return` takes the state from there again when the handler has returned.  In between the
frame is in the hands of the program, so whatever it holds `signal_return` gives no more than a user
program may have; and if the program has left it alone the interrupted state comes back.

`signalReturn_spec` says both, the second for handlers that are themselves interrupted to any depth.
Two things are lost: of the FPU's control word the bit for denormals-are-zero, which the mask for
its valid bits leaves out, and a process whose stack pointer was at or above the end of user space.
-/

namespace Bashket.Signal

open Bytes List

/-! ### The frame -/

/-- `struct registers` -/
structure Registers where
  r15 : BitVec 64
  r14 : BitVec 64
  r13 : BitVec 64
  r12 : BitVec 64
  r11 : BitVec 64
  r10 : BitVec 64
  r9 : BitVec 64
  r8 : BitVec 64
  rbp : BitVec 64
  rdi : BitVec 64
  rsi : BitVec 64
  rdx : BitVec 64
  rcx : BitVec 64
  rbx : BitVec 64
  rax : BitVec 64
  intNo : BitVec 64
  errCode : BitVec 64
  rip : BitVec 64
  cs : BitVec 64
  rflags : BitVec 64
  rsp : BitVec 64
  ss : BitVec 64
deriving DecidableEq

namespace Registers

def words (r : Registers) : List (BitVec 64) :=
  [r.r15, r.r14, r.r13, r.r12, r.r11, r.r10, r.r9, r.r8, r.rbp, r.rdi, r.rsi, r.rdx, r.rcx, r.rbx,
    r.rax, r.intNo, r.errCode, r.rip, r.cs, r.rflags, r.rsp, r.ss]

def ofWords (w : ℕ → BitVec 64) : Registers :=
  { r15 := w 0, r14 := w 1, r13 := w 2, r12 := w 3, r11 := w 4, r10 := w 5, r9 := w 6, r8 := w 7,
    rbp := w 8, rdi := w 9, rsi := w 10, rdx := w 11, rcx := w 12, rbx := w 13, rax := w 14,
    intNo := w 15, errCode := w 16, rip := w 17, cs := w 18, rflags := w 19, rsp := w 20,
    ss := w 21 }

theorem ofWords_words {w : ℕ → BitVec 64} {r : Registers}
    (h : ∀ k x, r.words[k]? = some x → w k = x) : ofWords w = r := by
  unfold ofWords
  congr 1 <;> exact h _ _ rfl

end Registers

abbrev fpuStateSize : ℕ := 512

/-- The state of the FPU, as `fxsave` stores it. -/
abbrev FpuState : Type := Fin fpuStateSize → UInt8

/-- `signal_frame_t`; `padding` aligns the FPU state and is not initialised. -/
structure Frame where
  restorer : BitVec 64
  signo : BitVec 64
  blocked : BitVec 64
  regs : Registers
  padding : BitVec 64
  fpu : FpuState

abbrev frameSize : ℕ := 720

namespace Frame

def words (f : Frame) : List (BitVec 64) :=
  [f.restorer, f.signo, f.blocked] ++ f.regs.words ++ [f.padding]

def bytes (f : Frame) : List UInt8 := f.words.flatMap bytes64 ++ List.ofFn f.fpu

def read (m : Memory) (p : ℕ) : Frame where
  restorer := get64 m p
  signo := get64 m (p + 8)
  blocked := get64 m (p + 16)
  regs := .ofWords fun k => get64 m (p + 24 + 8 * k)
  padding := get64 m (p + 200)
  fpu := fun k => m (p + 208 + k)

theorem length_bytes (f : Frame) : f.bytes.length = frameSize := by
  rw [bytes, length_append, length_ofFn]
  rfl

theorem read_copyIn (m : Memory) (p : ℕ) (f : Frame) : read (copyIn m p f.bytes) p = f := by
  have hword : ∀ k x, f.words[k]? = some x → get64 (copyIn m p f.bytes) (p + 8 * k) = x :=
    fun k x hk => get64_copyIn m p _ hk
  have hregs :
      Registers.ofWords (fun k => get64 (copyIn m p f.bytes) (p + 24 + 8 * k)) = f.regs := by
    refine Registers.ofWords_words fun k x hk => ?_
    rw [show p + 24 + 8 * k = p + 8 * (k + 3) by omega]
    refine hword (k + 3) x ?_
    have hlt : k < f.regs.words.length := (List.getElem?_eq_some_iff.1 hk).1
    simp only [words, cons_append, nil_append, getElem?_cons_succ]
    rw [getElem?_append_left hlt, hk]
  have hfpu : (fun k : Fin fpuStateSize => copyIn m p f.bytes (p + 208 + k)) = f.fpu := by
    funext k
    have hk : (k : ℕ) < (List.ofFn f.fpu).length := by
      rw [length_ofFn]
      exact k.isLt
    refine (copyIn_words_rest m p f.words hk).trans ?_
    rw [List.getD_eq_getElem?_getD, List.getElem?_ofFn, dif_pos k.isLt]
    rfl
  have hrestorer : get64 (copyIn m p f.bytes) p = f.restorer := hword 0 _ rfl
  have hsigno : get64 (copyIn m p f.bytes) (p + 8) = f.signo := hword 1 _ rfl
  have hblocked : get64 (copyIn m p f.bytes) (p + 16) = f.blocked := hword 2 _ rfl
  have hpadding : get64 (copyIn m p f.bytes) (p + 200) = f.padding := hword 25 _ rfl
  unfold read
  rw [hregs, hfpu, hrestorer, hsigno, hblocked, hpadding]

theorem read_congr {m m' : Memory} {p : ℕ} (h : ∀ k < frameSize, m' (p + k) = m (p + k)) :
    read m' p = read m p := by
  have hsize : frameSize = 208 + fpuStateSize := rfl
  have hword : ∀ q, p ≤ q → q + 8 ≤ p + 208 → get64 m' q = get64 m q := by
    intro q hq hq'
    have hbyte : ∀ i, q ≤ i → i < q + 8 → m' i = m i := by
      intro i h1 h2
      have := h (i - p) (by omega)
      rwa [show p + (i - p) = i by omega] at this
    rw [get64, get64, get32_congr fun i h1 h2 => hbyte i h1 (by omega),
      get32_congr fun i h1 h2 => hbyte i (by omega) (by omega)]
  have hregs : ∀ k < 22, get64 m' (p + 24 + 8 * k) = get64 m (p + 24 + 8 * k) :=
    fun k hk => hword _ (by omega) (by omega)
  unfold read
  congr 1
  · exact hword _ (by omega) (by omega)
  · exact hword _ (by omega) (by omega)
  · exact hword _ (by omega) (by omega)
  · unfold Registers.ofWords
    congr 1 <;> exact hregs _ (by decide)
  · exact hword _ (by omega) (by omega)
  · funext k
    have := h (208 + k) (by omega)
    rwa [← Nat.add_assoc] at this

end Frame

/-! ### The control word of the FPU -/

abbrev fxsaveMxcsrOffset : ℕ := 24

abbrev mxcsrValidBits : ℕ := 0xFFBF

namespace FpuState

def memory (f : FpuState) : Memory := fun k => if h : k < fpuStateSize then f ⟨k, h⟩ else 0

def mxcsr (f : FpuState) : ℕ := get32 f.memory fxsaveMxcsrOffset

def withMxcsr (f : FpuState) (v : ℕ) : FpuState := fun k => put32 f.memory fxsaveMxcsrOffset v k

theorem withMxcsr_mxcsr (f : FpuState) : f.withMxcsr f.mxcsr = f := by
  funext k
  unfold withMxcsr mxcsr
  rw [put32_get32, memory, dif_pos k.isLt]

theorem mxcsr_withMxcsr (f : FpuState) {v : ℕ} (hv : v < 2 ^ 32) : (f.withMxcsr v).mxcsr = v := by
  have hsize : fpuStateSize = 512 := rfl
  have hread : (f.withMxcsr v).mxcsr =
      get32 (put32 f.memory fxsaveMxcsrOffset v) fxsaveMxcsrOffset := by
    refine get32_congr fun i _ h2 => ?_
    have hi : i < fpuStateSize := by
      have : fxsaveMxcsrOffset = 24 := rfl
      omega
    rw [memory, dif_pos hi]
    rfl
  rw [hread, get32_put32 _ _ hv]

end FpuState

/-! ### Delivery and return -/

abbrev redZone : BitVec 64 := 128

abbrev rflagsUserMask : BitVec 64 := 0x0DD5

abbrev rflagsAlways : BitVec 64 := 0x0202

abbrev userCs : BitVec 64 := 0x23

abbrev userDs : BitVec 64 := 0x1B

abbrev fullFrame : BitVec 64 := 0x100

/-- `-EINTR`, as a call returns it. -/
abbrev eintr : BitVec 64 := -4

/-- `restart`: the number of the call that was just cut short plus one (`restart_syscall`). -/
structure User where
  regs : Registers
  fpu : FpuState
  restart : ℕ
  mem : Memory

def restartable (number : BitVec 64) : Bool :=
  number = 0 || number = 1 || number = 61 || number = 43

/-- `syscall_handler`: the call `number` has returned `result`. -/
def User.callDone (u : User) (number result : BitVec 64) : User :=
  { u with
    regs := { u.regs with rax := result }
    restart := if result = eintr && restartable number then number.toNat % 2 ^ 32 + 1 else 0 }

/-- `vmm_user_range_ok`, where `mapped` says that its pages are there. -/
def userRangeOk (addr : BitVec 64) (len : ℕ) (mapped : Bool) : Bool :=
  let e := addr + BitVec.ofNat 64 len
  !(e < addr || userSpaceEnd < e.toNat) && mapped

def frameAddr (rsp : BitVec 64) : BitVec 64 :=
  ((rsp - redZone - BitVec.ofNat 64 frameSize) &&& ~~~ 0xF#64) - 8#64

def frameFits (u : User) (mapped : Bool) : Bool :=
  frameAddr u.regs.rsp < u.regs.rsp && userRangeOk (frameAddr u.regs.rsp) frameSize mapped

def again (p : Process) (u : User) (sig : ℕ) : Bool :=
  u.restart ≠ 0 && p.flags sig &&& saRestart ≠ 0 && u.regs.rax = eintr

def savedRegs (p : Process) (u : User) (sig : ℕ) : Registers :=
  if again p u sig then
    { u.regs with rax := BitVec.ofNat 64 (u.restart - 1), rip := u.regs.rip - 2 }
  else u.regs

def savedFrame (p : Process) (i : ℕ) (u : User) (sig : ℕ) (padding : BitVec 64) : Frame where
  restorer := BitVec.ofNat 64 p.restorer
  signo := BitVec.ofNat 64 sig
  blocked := (p.threads i).sigBlocked.setWidth 64
  regs := savedRegs p u sig
  padding
  fpu := u.fpu

def enter (p : Process) (i : ℕ) (u : User) (sig : ℕ) (padding : BitVec 64) : User where
  regs :=
    { u.regs with
      rip := BitVec.ofNat 64 (p.handlers sig)
      rdi := BitVec.ofNat 64 sig
      rsp := frameAddr u.regs.rsp
      rflags := u.regs.rflags &&& ~~~ (1#64 <<< 10) &&& ~~~ (1#64 <<< 8) }
  fpu := u.fpu
  restart := 0
  mem := copyIn u.mem (frameAddr u.regs.rsp).toNat (savedFrame p i u sig padding).bytes

/-- `signal_deliver`; `none`: it ends the process. -/
def signalDeliver (p : Process) (i : ℕ) (mapped : Bool) (padding : BitVec 64) (u : User) :
    Option (Process × User) :=
  let back := { u with restart := 0 }
  match p.nextSignal i with
  | none => some (p, back)
  | some sig =>
    if u.regs.cs &&& 3 ≠ 3 then some (p, back)
    else if p.handlers sig = sigIgn then some (p.deliver i true, back)
    else if p.handlers sig = sigDfl then
      if defaultIsIgnore sig || defaultIsStop sig then some (p.deliver i true, back) else none
    else if frameFits u mapped then some (p.deliver i true, enter p i u sig padding)
    else none

def returnRegs (r : Registers) : Registers :=
  { r with
    cs := userCs
    ss := userDs
    rflags := (r.rflags &&& rflagsUserMask) ||| rflagsAlways
    intNo := fullFrame }

/-- `signal_return`; `none`: it ends the process. -/
def signalReturn (p : Process) (i : ℕ) (mapped : Bool) (u : User) : Option (Process × User) :=
  let addr := u.regs.rsp - 8
  if u.regs.rsp < addr || !userRangeOk addr frameSize mapped then none
  else
    let frame := Frame.read u.mem addr.toNat
    if userSpaceEnd ≤ frame.regs.rip.toNat || userSpaceEnd ≤ frame.regs.rsp.toNat then none
    else
      let fpu := frame.fpu.withMxcsr (frame.fpu.mxcsr &&& mxcsrValidBits)
      some (p.changeMask i .setmask (frame.blocked.setWidth 32),
        { u with regs := returnRegs frame.regs, fpu })

/-! ### No privilege -/

/-- The selectors of user mode, addresses in user space, only the flags it may set (interrupts on,
I/O privilege level 0), a valid MXCSR, and the signals that cannot be blocked not blocked. -/
structure Unprivileged (p : Process) (i : ℕ) (u : User) : Prop where
  cs : u.regs.cs = userCs
  ss : u.regs.ss = userDs
  rip : u.regs.rip.toNat < userSpaceEnd
  rsp : u.regs.rsp.toNat < userSpaceEnd
  rflags : u.regs.rflags &&& ~~~ rflagsUserMask = rflagsAlways
  mxcsr : u.fpu.mxcsr &&& mxcsrValidBits = u.fpu.mxcsr
  kill : (p.threads i).sigBlocked.getLsbD sigKill = false
  stop : (p.threads i).sigBlocked.getLsbD sigStop = false

theorem Thread.sigBlocked_requestKill (t : Thread) (sig : ℕ) :
    (t.requestKill sig).sigBlocked = t.sigBlocked := by
  unfold requestKill; split <;> rfl

theorem Thread.sigBlocked_requestStop (t : Thread) (sig : ℕ) :
    (t.requestStop sig).sigBlocked = t.sigBlocked := by
  unfold requestStop; split <;> rfl

theorem Thread.sigBlocked_wakeBlocked (t : Thread) : t.wakeBlocked.sigBlocked = t.sigBlocked := by
  unfold wakeBlocked; split <;> rfl

namespace Process

theorem sigBlocked_update {f : Thread → Thread} (hf : ∀ t : Thread, (f t).sigBlocked = t.sigBlocked)
    (p : Process) (i j : ℕ) : ((p.update i f).threads j).sigBlocked = (p.threads j).sigBlocked := by
  rcases eq_or_ne j i with rfl | hne
  · simp only [update, Function.update_self, hf]
  · simp only [update, Function.update_of_ne hne]

theorem sigBlocked_forEachThread {f : Thread → Thread}
    (hf : ∀ t : Thread, (f t).sigBlocked = t.sigBlocked) (p : Process) (j : ℕ) :
    ((p.forEachThread f).threads j).sigBlocked = (p.threads j).sigBlocked := by
  unfold forEachThread
  dsimp only
  split
  · exact hf _
  · rfl

theorem sigBlocked_actOn (p : Process) (i sig j : ℕ) :
    ((actOn i p sig).threads j).sigBlocked = (p.threads j).sigBlocked := by
  have hdrop := sigBlocked_update (fun t => (rfl : (t.dropPending sig).sigBlocked = _)) p i j
  unfold actOn
  dsimp only
  split
  · split
    · rw [sigBlocked_forEachThread fun t => t.sigBlocked_requestStop sig, hdrop]
    split
    · rw [sigBlocked_forEachThread fun t => t.sigBlocked_requestKill sig, hdrop]
    · exact hdrop
  split
  · exact hdrop
  · exact sigBlocked_update Thread.sigBlocked_wakeBlocked p i j

theorem sigBlocked_actOnPending (p : Process) (i j : ℕ) :
    ((p.actOnPending i).threads j).sigBlocked = (p.threads j).sigBlocked := by
  unfold actOnPending
  generalize signals.filter (p.threads i).ready = l
  induction l generalizing p with
  | nil => rfl
  | cons k l ih => exact (ih (actOn i p k)).trans (sigBlocked_actOn p i k j)

theorem sigBlocked_changeMask (p : Process) (i : ℕ) (how : How) (set : Mask) :
    ((p.changeMask i how set).threads i).sigBlocked =
      maskAfter how set (p.threads i).sigBlocked := by
  rw [changeMask, sigBlocked_actOnPending]
  simp only [setBlocked, update, Function.update_self]

end Process

variable {sig i : ℕ} {p : Process} {mapped : Bool} {u : User}

theorem getLsbD_maskAfter_setmask (set blocked : Mask) (hs : sig < 32) :
    (Process.maskAfter .setmask set blocked).getLsbD sig =
      (set.getLsbD sig && decide (sig ≠ 0 ∧ sig ≠ sigKill ∧ sig ≠ sigStop)) := by
  have hall : ∀ k : Fin 32, (~~~ (unblockable ||| 1#32)).getLsbD k =
      decide (k.val ≠ 0 ∧ k.val ≠ sigKill ∧ k.val ≠ sigStop) := by decide
  simp only [Process.maskAfter, BitVec.getLsbD_and]
  rw [hall ⟨sig, hs⟩]

theorem returnRegs_rflags (r : Registers) :
    (returnRegs r).rflags &&& ~~~ rflagsUserMask = rflagsAlways := by
  have hmask : rflagsUserMask &&& ~~~ rflagsUserMask = 0#64 := by decide
  have halways : rflagsAlways &&& ~~~ rflagsUserMask = rflagsAlways := by decide
  simp only [returnRegs]
  rw [BitVec.and_or_distrib_right, BitVec.and_assoc, hmask, halways, BitVec.and_zero,
    BitVec.zero_or]

theorem unprivileged_signalReturn {p' : Process} {u' : User}
    (h : signalReturn p i mapped u = some (p', u')) : Unprivileged p' i u' := by
  unfold signalReturn at h
  dsimp only at h
  split at h
  · cases h
  split at h
  · cases h
  next hframe =>
    simp only [Bool.or_eq_true, decide_eq_true_eq, not_or, not_le] at hframe
    cases h
    generalize Frame.read u.mem (u.regs.rsp - 8).toNat = frame at *
    have hvalid : frame.fpu.mxcsr &&& mxcsrValidBits < 2 ^ 32 :=
      lt_of_le_of_lt Nat.and_le_left (get32_lt _ _)
    refine ⟨rfl, rfl, hframe.1, hframe.2, returnRegs_rflags _, ?_, ?_, ?_⟩
    · rw [FpuState.mxcsr_withMxcsr _ hvalid, Nat.land_assoc]
      rfl
    · rw [Process.sigBlocked_changeMask, getLsbD_maskAfter_setmask _ _ (by decide)]
      simp
    · rw [Process.sigBlocked_changeMask, getLsbD_maskAfter_setmask _ _ (by decide)]
      simp

/-! ### The frames of handlers that run -/

theorem toNat_and_not_fifteen (x : BitVec 64) : (x &&& ~~~ 0xF#64).toNat = x.toNat / 16 * 16 := by
  have hbits : ∀ k : Fin 64, (~~~ 0xF#64).getLsbD k = decide (4 ≤ k.val) := by decide
  have hshift : x &&& ~~~ 0xF#64 = (x >>> 4) <<< 4 := by
    apply BitVec.eq_of_getLsbD_eq
    intro k hk
    rw [BitVec.getLsbD_and, hbits ⟨k, hk⟩]
    by_cases h4 : 4 ≤ k
    · simp [h4, hk]
    · simp [h4]
  rw [hshift, BitVec.toNat_shiftLeft, BitVec.toNat_ushiftRight]
  omega

theorem toNat_frameAddr (rsp : BitVec 64) : (frameAddr rsp).toNat =
    (2 ^ 64 - 8 + (2 ^ 64 - 848 + rsp.toNat) % 2 ^ 64 / 16 * 16) % 2 ^ 64 := by
  have hsub : (rsp - redZone - BitVec.ofNat 64 frameSize).toNat =
      (2 ^ 64 - 848 + rsp.toNat) % 2 ^ 64 := by
    have hzone : redZone.toNat = 128 := rfl
    have hsize : frameSize = 720 := rfl
    simp only [BitVec.toNat_sub, BitVec.toNat_ofNat]
    omega
  rw [frameAddr, BitVec.toNat_sub, toNat_and_not_fifteen, hsub]
  rfl

theorem frameAddr_below (h : frameFits u mapped) :
    (frameAddr u.regs.rsp).toNat + 848 ≤ u.regs.rsp.toNat ∧
      (frameAddr u.regs.rsp).toNat + 720 ≤ userSpaceEnd := by
  have hend : userSpaceEnd = 0x800000000000 := rfl
  have hsize : frameSize = 720 := rfl
  simp only [frameFits, userRangeOk, Bool.and_eq_true, Bool.not_eq_true',
    Bool.or_eq_false_iff, decide_eq_false_iff_not, BitVec.lt_def, BitVec.toNat_add,
    BitVec.toNat_ofNat, toNat_frameAddr] at h ⊢
  omega

/-- `signal_deliver` enters the handler of the signal. -/
structure Enters (p : Process) (i : ℕ) (mapped : Bool) (u : User) (sig : ℕ) : Prop where
  next : p.nextSignal i = some sig
  handled : p.handlers sig ≠ sigIgn ∧ p.handlers sig ≠ sigDfl
  user : u.regs.cs &&& 3 = 3
  fits : frameFits u mapped

theorem Enters.signalDeliver (h : Enters p i mapped u sig) (padding : BitVec 64) :
    signalDeliver p i mapped padding u = some (p.deliver i true, enter p i u sig padding) := by
  unfold Signal.signalDeliver
  simp only [h.next, h.user, ne_eq, not_true_eq_false, if_false, if_neg h.handled.1,
    if_neg h.handled.2, h.fits, if_true]

/-- While handlers run whose frames are at `frames`, the last one first: the thread's own code,
which leaves these frames alone and keeps its stack below them (up to where a handler has returned),
and further handlers from delivery to return. The process may change as it likes. -/
inductive Runs (i : ℕ) : List ℕ → Process × User → Process × User → Prop
  | refl {frames : List ℕ} {s : Process × User} : Runs i frames s s
  | user {frames : List ℕ} {s : Process × User} {p p' : Process} {u u' : User}
      (before : Runs i frames s (p, u))
      (alone : ∀ f ∈ frames, ∀ k < frameSize, u'.mem (f + k) = u.mem (f + k))
      (below : ∀ f ∈ frames, u'.regs.rsp.toNat ≤ f + 8) : Runs i frames s (p', u')
  | handler {frames : List ℕ} {s s₁ s₂ : Process × User} {p p' : Process} {u u' : User}
      {mapped : Bool} {sig : ℕ} {padding : BitVec 64}
      (before : Runs i frames s (p, u)) (enters : Enters p i mapped u sig)
      (delivered : signalDeliver p i mapped padding u = some s₁)
      (inside : Runs i ((frameAddr u.regs.rsp).toNat :: frames) s₁ (p', u'))
      (rsp : u'.regs.rsp = frameAddr u.regs.rsp + 8)
      (returned : signalReturn p' i true u' = some s₂) : Runs i frames s s₂

/-- The frames are as they were, and the stack is below them. -/
structure Intact (frames : List ℕ) (m : Memory) (u : User) : Prop where
  alone : ∀ f ∈ frames, ∀ k < frameSize, u.mem (f + k) = m (f + k)
  below : ∀ f ∈ frames, u.regs.rsp.toNat ≤ f + 8

theorem rsp_savedRegs (p : Process) (u : User) (sig : ℕ) :
    (savedRegs p u sig).rsp = u.regs.rsp := by
  unfold savedRegs
  split <;> rfl

section Return

variable {p : Process} {i : ℕ} {mapped : Bool} {u u' : User} {sig : ℕ} {padding : BitVec 64}

theorem read_savedFrame {frames : List ℕ}
    (h : Intact ((frameAddr u.regs.rsp).toNat :: frames) (enter p i u sig padding).mem u') :
    Frame.read u'.mem (frameAddr u.regs.rsp).toNat = savedFrame p i u sig padding := by
  rw [Frame.read_congr (h.alone _ mem_cons_self)]
  exact Frame.read_copyIn _ _ _

theorem signalReturn_savedFrame (p' : Process) (henter : Enters p i mapped u sig)
    (hframe : Frame.read u'.mem (frameAddr u.regs.rsp).toNat = savedFrame p i u sig padding)
    (hrsp : u'.regs.rsp = frameAddr u.regs.rsp + 8) :
    signalReturn p' i true u' =
      if userSpaceEnd ≤ (savedRegs p u sig).rip.toNat || userSpaceEnd ≤ u.regs.rsp.toNat then none
      else some (p'.changeMask i .setmask (p.threads i).sigBlocked,
        { u' with
          regs := returnRegs (savedRegs p u sig)
          fpu := u.fpu.withMxcsr (u.fpu.mxcsr &&& mxcsrValidBits) }) := by
  obtain ⟨hbelow, hspace⟩ := frameAddr_below henter.fits
  have hsize : frameSize = 720 := rfl
  have haddr : u'.regs.rsp - 8 = frameAddr u.regs.rsp := by rw [hrsp, BitVec.add_sub_cancel]
  have horder : ¬ u'.regs.rsp < frameAddr u.regs.rsp := by
    have height : (8 : BitVec 64).toNat = 8 := rfl
    rw [hrsp, BitVec.lt_def, BitVec.toNat_add]
    omega
  have hrange : userRangeOk (frameAddr u.regs.rsp) frameSize true := by
    simp only [userRangeOk, Bool.and_true, Bool.not_eq_true', Bool.or_eq_false_iff,
      decide_eq_false_iff_not, BitVec.lt_def, BitVec.toNat_add, BitVec.toNat_ofNat]
    omega
  have hmask : (savedFrame p i u sig padding).blocked.setWidth 32 = (p.threads i).sigBlocked := by
    simp only [savedFrame]
    rw [BitVec.setWidth_setWidth_of_le _ (by decide), BitVec.setWidth_eq]
  unfold signalReturn
  dsimp only
  rw [haddr, hframe, hmask]
  simp only [horder, hrange]
  simp only [savedFrame, rsp_savedRegs]
  rfl

theorem Runs.intact {frames : List ℕ} {s s' : Process × User} (h : Runs i frames s s')
    (hbelow : ∀ f ∈ frames, s.2.regs.rsp.toNat ≤ f + 8) : Intact frames s.2.mem s'.2 := by
  induction h with
  | refl => exact ⟨fun _ _ _ _ => rfl, hbelow⟩
  | user before alone below ih =>
    exact ⟨fun f hf k hk => (alone f hf k hk).trans ((ih hbelow).alone f hf k hk), below⟩
  | @handler frames s s₁ s₂ p p' u u' mapped sig padding before enters delivered inside rsp returned
      ih ihInside =>
    cases (enters.signalDeliver padding).symm.trans delivered
    have hbefore := ih hbelow
    obtain ⟨hred, -⟩ := frameAddr_below enters.fits
    -- the new frame is below all the others
    have hfar : ∀ f ∈ frames, (frameAddr u.regs.rsp).toNat + 840 ≤ f := by
      intro f hf
      have := hbefore.below f hf
      dsimp only at this
      omega
    have hinside := ihInside (by
      intro f hf
      rcases mem_cons.1 hf with rfl | hf
      · exact Nat.le_add_right _ 8
      · have := hfar f hf
        simp only [enter]
        omega)
    rw [signalReturn_savedFrame p' enters (read_savedFrame hinside) rsp] at returned
    split at returned
    · cases returned
    cases returned
    refine ⟨fun f hf k hk => ?_, fun f hf => ?_⟩
    · refine (hinside.alone f (mem_cons_of_mem _ hf) k hk).trans ?_
      have hsize : frameSize = 720 := rfl
      have := hfar f hf
      simp only [enter]
      rw [copyIn_outside]
      · exact hbefore.alone f hf k hk
      · rw [Frame.length_bytes]
        omega
    · simp only [returnRegs, rsp_savedRegs]
      exact hbefore.below f hf

end Return

/-! ### The interrupted state comes back -/

/-- MXCSR has only bits of the mask (so denormals are not zeros), stack pointer and program counter
are in user space, and a call that is made again was made by an instruction before that. -/
structure Restorable (u : User) : Prop where
  mxcsr : u.fpu.mxcsr &&& mxcsrValidBits = u.fpu.mxcsr
  rsp : u.regs.rsp.toNat < userSpaceEnd
  rip : u.regs.rip.toNat < userSpaceEnd
  call : u.restart ≠ 0 → 2 ≤ u.regs.rip.toNat

/-- The registers but for the selectors and the flags a program may not set, the FPU state and the
blocked signals are there again; a call that was cut short is made again exactly when the action
says so and the call can be. -/
structure Restored (p : Process) (i : ℕ) (u : User) (sig : ℕ) (s : Process × User) : Prop where
  regs : s.2.regs = returnRegs (savedRegs p u sig)
  fpu : s.2.fpu = u.fpu
  blocked : ∀ k, validSignal k → k ≠ sigKill → k ≠ sigStop →
    (s.1.threads i).sigBlocked.getLsbD k = (p.threads i).sigBlocked.getLsbD k
  repeats : ∀ u₀ number result, u = User.callDone u₀ number result →
    ((s.2.regs.rip = u.regs.rip - 2 ∧ s.2.regs.rax = number) ↔
      p.flags sig &&& saRestart ≠ 0 ∧ result = eintr ∧ restartable number)
  returns : u.restart = 0 → s.2.regs.rip = u.regs.rip ∧ s.2.regs.rax = u.regs.rax

section Restore

variable {p : Process} {u : User} {sig : ℕ}

theorem restartable_lt {number : BitVec 64} (h : restartable number) : number.toNat < 2 ^ 32 := by
  simp only [restartable, Bool.or_eq_true, decide_eq_true_eq] at h
  rcases h with ((rfl | rfl) | rfl) | rfl <;> decide

theorem repeats_callDone {u₀ : User} {number result : BitVec 64}
    (hu : u = u₀.callDone number result) :
    ((savedRegs p u sig).rip = u.regs.rip - 2 ∧ (savedRegs p u sig).rax = number) ↔
      p.flags sig &&& saRestart ≠ 0 ∧ result = eintr ∧ restartable number := by
  have hrax : u.regs.rax = result := by rw [hu]; rfl
  have hrestart : u.restart =
      if result = eintr && restartable number then number.toNat % 2 ^ 32 + 1 else 0 := by
    rw [hu]
    rfl
  have hagain : again p u sig ↔
      p.flags sig &&& saRestart ≠ 0 ∧ result = eintr ∧ restartable number := by
    simp only [again, hrax, hrestart]
    by_cases hcut : result = eintr ∧ restartable number
    · simp [hcut]
    · simp [hcut]
  rw [← hagain]
  unfold savedRegs
  split
  · next ha =>
    obtain ⟨-, hint, hable⟩ := hagain.1 ha
    simp only [ha, iff_true, true_and]
    rw [hrestart, if_pos (by simp [hint, hable]), Nat.add_sub_cancel,
      Nat.mod_eq_of_lt (restartable_lt hable), BitVec.ofNat_toNat, BitVec.setWidth_eq]
  · next ha =>
    simp only [ha, Bool.false_eq_true, iff_false, not_and]
    intro hrip
    have hne : u.regs.rip ≠ u.regs.rip - 2 := by bv_omega
    exact absurd hrip hne

theorem rip_savedRegs_lt (h : Restorable u) : (savedRegs p u sig).rip.toNat < userSpaceEnd := by
  unfold savedRegs
  split
  · next ha =>
    have hrestart : u.restart ≠ 0 := by
      simp only [again, Bool.and_eq_true, decide_eq_true_eq] at ha
      exact ha.1.1
    have htwo : (2 : BitVec 64).toNat = 2 := rfl
    have h2 := h.call hrestart
    have hlt := h.rip
    rw [BitVec.toNat_sub]
    omega
  · exact h.rip

theorem savedRegs_of_restart_zero (h : u.restart = 0) : savedRegs p u sig = u.regs := by
  simp [savedRegs, again, h]

end Restore

def signalled : Process := (oneThread 10 0x1000).send 10

def interrupted (mxcsr : ℕ) : User where
  regs := { Registers.ofWords fun _ => 0 with cs := userCs, rip := 0x400100, rsp := 0x70000000 }
  fpu := FpuState.withMxcsr (fun _ => 0) mxcsr
  restart := 0
  mem := fun _ => 0

def handlerDone (u : User) : User :=
  let entered := enter signalled 1 u 10 0
  { entered with regs := { entered.regs with rsp := frameAddr u.regs.rsp + 8 } }

theorem enters_interrupted (v : ℕ) : Enters signalled 1 true (interrupted v) 10 := by
  have hcs : (interrupted v).regs.cs = userCs := rfl
  have hrsp : (interrupted v).regs.rsp = 0x70000000 := rfl
  refine ⟨by decide +kernel, by decide +kernel, ?_, ?_⟩
  · rw [hcs]
    decide
  · rw [frameFits, hrsp]
    decide

theorem runs_handlerDone (v : ℕ) :
    Runs 1 [(frameAddr (interrupted v).regs.rsp).toNat]
      (signalled.deliver 1 true, enter signalled 1 (interrupted v) 10 0)
      (signalled.deliver 1 true, handlerDone (interrupted v)) := by
  refine .user .refl (fun f _ k _ => rfl) fun f hf => ?_
  obtain rfl := mem_singleton.1 hf
  have hend : (frameAddr (interrupted v).regs.rsp + 8).toNat =
      (frameAddr (interrupted v).regs.rsp).toNat + 8 := by
    simp only [interrupted]
    decide
  exact hend.le

end Bashket.Signal
