import Bashket.Net.Reassembly

/-!
# Cutting a datagram and putting it together

The fragments that `ipv4_send_parts` makes of a datagram tile it (`Cut`). Whatever the order in
which they arrive, the receiver holds the pieces that have arrived, in order (`Progress`), and the
last one missing gives the datagram back.
-/

namespace Bashket.Net

open List
open Function (update update_of_ne update_self)

/-- The fragments are a datagram cut into pieces. -/
structure Cut (key : Key) (payload : List UInt8) (fs : List Fragment) : Prop where
  tiling : Tiles.Tiling Fragment.offset Fragment.len 0 fs payload.length
  data : (fs.map Fragment.data).flatten = payload
  key : ∀ f ∈ fs, f.key = key
  more : ∀ f ∈ fs, f.more = decide (f.offset + f.len < payload.length)
  pos : ∀ f ∈ fs, 0 < f.len
  eighths : ∀ f ∈ fs, f.more = true → f.len % 8 = 0
  longest : payload.length ≤ ipv4PayloadMax
  cost : (fs.map Fragment.cost).sum ≤ ipfragMemory

/-! ### Sending -/

theorem share_eq (head body : List UInt8) (offset n : ℕ) :
    share head body offset n = ((head ++ body).drop offset).take n := by
  rw [share, drop_append, take_append, length_drop]
  by_cases hoff : offset < head.length
  · rw [if_pos hoff]
    by_cases hn : n ≤ head.length - offset
    · rw [Nat.min_eq_right hn, Nat.sub_eq_zero_of_le hn]
      simp
    · have hlen : (head.drop offset).length ≤ n := by
        rw [length_drop]
        omega
      rw [Nat.min_eq_left (by omega), take_of_length_le hlen,
        take_of_length_le (by rw [length_drop])]
      congr 3
      omega
  · rw [if_neg hoff, drop_eq_nil_of_le (by omega)]
    simp only [take_nil, nil_append]
    congr 1
    omega

theorem flagsFragment_spec {x : ℕ} (hx : x < 8192) (more : Bool) :
    let flags := (if more then 0x2000 else 0) ||| x % 2 ^ 16
    flags &&& 0x1FFF = x ∧ (flags &&& 0x2000 ≠ 0 ↔ more = true) := by
  have hmod : x % 2 ^ 16 = x := Nat.mod_eq_of_lt (by omega)
  have hlow (y : ℕ) : y &&& 0x1FFF = y % 2 ^ 13 := Nat.and_two_pow_sub_one_eq_mod y 13
  have hpow : (0x2000 : ℕ) = 2 ^ 13 := by norm_num
  have hbit (y : ℕ) : y &&& 0x2000 = (y.testBit 13).toNat * 2 ^ 13 := by
    rw [hpow, Nat.and_two_pow]
  cases more with
  | false =>
    simp only [Bool.false_eq_true, if_false, Nat.zero_or, hmod, hlow, hbit]
    refine ⟨Nat.mod_eq_of_lt hx, ?_⟩
    rw [Nat.testBit_lt_two_pow hx]
    simp
  | true =>
    have hor : 0x2000 ||| x = 2 ^ 13 + x := by
      have h0 := Nat.two_pow_add_eq_or_of_lt (i := 13) hx 1
      rw [Nat.mul_one] at h0
      rw [h0]
    simp only [if_true, hmod, hor, hlow, hbit]
    refine ⟨by omega, ?_⟩
    rw [Nat.testBit_two_pow_add_eq, Nat.testBit_lt_two_pow hx]
    simp

/-- What a packet of the loop becomes at the receiver: a fragment at its place. -/
theorem ipv4Input_packet (key : Key) (head body : List UInt8) {offset n : ℕ}
    (hlen : 1500 - 20 < head.length + body.length)
    (hmax : head.length + body.length ≤ ipv4PayloadMax) (hoff : offset % 8 = 0)
    (hn : offset + n ≤ head.length + body.length) (hn' : n ≤ perFragment) :
    ∃ f, ipv4Input
      { header :=
          { totalLength := (20 + n) % 2 ^ 16
            id := key.id
            flagsFragment :=
              if 1500 - 20 < head.length + body.length then
                (if offset + n < head.length + body.length then 0x2000 else 0) |||
                  (offset / 8) % 2 ^ 16
              else 0x4000
            protocol := key.protocol
            src := key.src
            dst := key.dst }
        payload := share head body offset n } = .inr f ∧
      f.key = key ∧ f.offset = offset ∧ f.data = ((head ++ body).drop offset).take n ∧
      f.more = decide (offset + n < head.length + body.length) := by
  have hx : offset / 8 < 8192 := by
    rw [ipv4PayloadMax] at hmax
    omega
  rw [perFragment] at hn'
  have hpay : (((head ++ body).drop offset).take n).length = n := by
    rw [length_take, length_drop, length_append]
    omega
  obtain ⟨h1, h2⟩ := flagsFragment_spec hx (decide (offset + n < head.length + body.length))
  simp only [decide_eq_true_eq] at h1 h2
  have htotal : (20 + n) % 2 ^ 16 - 20 = n := by
    omega
  simp only [ipv4Input, if_pos hlen, share_eq, htotal, take_of_length_le hpay.le]
  rw [if_neg]
  · refine ⟨_, rfl, rfl, by simp only; omega, rfl, ?_⟩
    simp only [h2]
  · rintro ⟨h3, h4⟩
    exact h3 (h2.2 (by omega))

theorem sendLoop_spec (key : Key) (head body : List UInt8)
    (hlen : 1500 - 20 < head.length + body.length)
    (hmax : head.length + body.length ≤ ipv4PayloadMax) (fuel offset : ℕ) (hoff : offset % 8 = 0)
    (hlt : offset < head.length + body.length)
    (hfuel : head.length + body.length - offset < fuel) :
    ∃ fs : List Fragment,
      (sendLoop key head body fuel offset).map ipv4Input = fs.map .inr ∧
      Tiles.Tiling Fragment.offset Fragment.len offset fs (head.length + body.length) ∧
      (fs.map Fragment.data).flatten = (head ++ body).drop offset ∧
      (∀ f ∈ fs, f.key = key ∧ f.more = decide (f.offset + f.len < head.length + body.length) ∧
        0 < f.len ∧ (f.more = true → f.len % 8 = 0)) ∧
      perFragment * fs.length < head.length + body.length - offset + perFragment := by
  induction fuel generalizing offset with
  | zero => omega
  | succ fuel ih =>
    obtain ⟨n, hn⟩ : ∃ n, n = if head.length + body.length - offset < perFragment then
      head.length + body.length - offset else perFragment := ⟨_, rfl⟩
    have hper : perFragment = 1480 := rfl
    have hnle : n ≤ perFragment ∧ offset + n ≤ head.length + body.length ∧ 0 < n := by
      rw [hn]
      split_ifs <;> omega
    obtain ⟨f, hf, hkey, hfo, hdata, hmore⟩ := ipv4Input_packet key head body hlen hmax hoff
      hnle.2.1 hnle.1
    have hfl : f.len = n := by
      rw [Fragment.len, hdata, length_take, length_drop, length_append]
      omega
    have hfull (h0 : offset + n < head.length + body.length) : n = perFragment := by
      rw [hn] at h0 ⊢
      split_ifs at h0 ⊢ <;> omega
    have hprop : f.key = key ∧ f.more = decide (f.offset + f.len < head.length + body.length) ∧
        0 < f.len ∧ (f.more = true → f.len % 8 = 0) := by
      rw [hfo, hfl]
      refine ⟨hkey, hmore, hnle.2.2, fun h0 => ?_⟩
      rw [hmore, decide_eq_true_eq] at h0
      rw [hfull h0]
      rfl
    rw [sendLoop]
    simp only [← hn, map_cons, hf]
    by_cases hend : offset + n < head.length + body.length
    · obtain ⟨fs, h1, h2, h3, h4, h5⟩ := ih (offset + n) (by omega) hend (by omega)
      refine ⟨f :: fs, ?_, ⟨hfo, by rw [hfl]; exact h2⟩, ?_, ?_, ?_⟩
      · rw [if_pos hend, h1, map_cons]
      · rw [map_cons, flatten_cons, h3, hdata, ← drop_drop, take_append_drop]
      · intro g hg
        rcases mem_cons.1 hg with rfl | hg
        · exact hprop
        · exact h4 g hg
      · rw [length_cons, Nat.mul_succ]
        omega
    · refine ⟨[f], ?_, ⟨hfo, ?_⟩, ?_, ?_, ?_⟩
      · rw [if_neg hend]
        rfl
      · show offset + f.len = _
        omega
      · rw [map_singleton, flatten_singleton, hdata, take_of_length_le]
        rw [length_drop, length_append]
        omega
      · intro g hg
        rw [mem_singleton.1 hg]
        exact hprop
      · rw [length_singleton]
        omega

theorem sum_cost (fs : List Fragment) :
    (fs.map Fragment.cost).sum = ipfragPieceOverhead * fs.length + (fs.map Fragment.len).sum := by
  induction fs with
  | nil => rfl
  | cons f fs ih =>
    simp only [map_cons, sum_cons, length_cons, Nat.mul_succ, Fragment.cost]
    omega

theorem cut_sent (key : Key) (head body : List UInt8)
    (hlen : 1500 - 20 < head.length + body.length)
    (hmax : head.length + body.length ≤ ipv4PayloadMax) :
    ∃ ps fs, ipv4SendParts key head body = some ps ∧ ps.map ipv4Input = fs.map .inr ∧
      Cut key (head ++ body) fs := by
  obtain ⟨fs, h1, h2, h3, h4, h5⟩ := sendLoop_spec key head body hlen hmax
    (head.length + body.length + 1) 0 rfl (by omega) (by omega)
  have hsum := h2.sum
  refine ⟨_, fs, ?_, h1, ⟨?_, ?_, fun f hf => (h4 f hf).1, fun f hf => ?_, fun f hf => (h4 f hf).2.2.1,
    fun f hf => (h4 f hf).2.2.2, ?_, ?_⟩⟩
  · rw [ipv4SendParts, if_neg (by omega)]
  · rw [length_append]
    exact h2
  · rw [h3, drop_zero]
  · rw [length_append]
    exact (h4 f hf).2.1
  · rwa [length_append]
  · have hper : perFragment = 1480 := rfl
    rw [sum_cost, ipfragPieceOverhead, ipfragMemory]
    rw [ipv4PayloadMax] at hmax
    rw [hper] at h5
    omega

theorem whole_sent (key : Key) (head body : List UInt8)
    (hlen : head.length + body.length ≤ 1500 - 20) :
    ∃ p, ipv4SendParts key head body = some [p] ∧ ipv4Input p = .inl (head ++ body) := by
  have hper : perFragment = 1480 := rfl
  have hn : (if head.length + body.length - 0 < perFragment then head.length + body.length - 0
      else perFragment) = head.length + body.length := by
    split_ifs <;> omega
  rw [ipv4SendParts, if_neg (by rw [ipv4PayloadMax]; omega), sendLoop]
  simp only [hn, Nat.zero_add, if_neg (lt_irrefl _)]
  refine ⟨_, rfl, ?_⟩
  have htotal : (20 + (head.length + body.length)) % 2 ^ 16 - 20 = head.length + body.length := by
    omega
  simp only [ipv4Input, if_neg (not_lt.2 hlen), htotal, share_eq, drop_zero]
  rw [if_pos (by simp), take_of_length_le (by simp), take_of_length_le (by simp)]

/-! ### The pieces that have arrived -/

def got (fs ds : List Fragment) : List Piece := (fs.filter (· ∈ ds)).map Fragment.piece

/-- The datagram in progress holds just what has arrived of it. -/
structure Collects (payload : List UInt8) (fs ds : List Fragment) (r : Reassembly) : Prop where
  pieces : r.pieces = got fs ds
  ended : ∀ f ∈ fs, f ∈ ds → f.more = false → r.total = payload.length
  endless : (∀ f ∈ fs, f ∈ ds → f.more = true) → r.total = 0

variable {key : Key} {payload : List UInt8} {fs ds as : List Fragment} {f : Fragment}
  {r : Reassembly} {s : State} {i : Fin ipfragSlots}

theorem mem_got {p : Piece} : p ∈ got fs ds ↔ ∃ f ∈ fs, f ∈ ds ∧ f.piece = p := by
  simp [got, and_assoc]

theorem got_append (fs₁ fs₂ : List Fragment) : got (fs₁ ++ fs₂) ds = got fs₁ ds ++ got fs₂ ds := by
  simp [got]

namespace Cut

theorem le_length (h : Cut key payload fs) (hf : f ∈ fs) : f.offset + f.len ≤ payload.length :=
  (h.tiling.apart.bounds hf).2

theorem fits (h : Cut key payload fs) (hf : f ∈ fs) : f.Fits := by
  have h1 := h.le_length hf
  have h2 := h.longest
  rw [ipv4PayloadMax] at h2
  rw [Fragment.Fits]
  omega

theorem stop_eq (h : Cut key payload fs) (hf : f ∈ fs) : f.stop = f.offset + f.len :=
  Fragment.stop_eq (h.fits hf)

theorem not_malformed (h : Cut key payload fs) (hf : f ∈ fs) : f.malformed = false := by
  have h1 := (h.le_length hf).trans h.longest
  rw [← h.stop_eq hf] at h1
  have h2 := h.pos f hf
  rw [Fragment.malformed, Bool.or_eq_false_iff]
  refine ⟨?_, decide_eq_false (not_lt.2 h1)⟩
  cases hm : f.more with
  | false => rfl
  | true => simp [h.eighths f hf hm, h2.ne']

theorem piece_offset (h : Cut key payload fs) (hf : f ∈ fs) : f.piece.offset = f.offset :=
  Fragment.piece_offset (h.fits hf) (h.not_malformed hf)

theorem split (h : Cut key payload fs) (hf : f ∈ fs) : ∃ l₁ l₂, fs = l₁ ++ f :: l₂ ∧
    (∀ g ∈ l₁, g.offset + g.len ≤ f.offset) ∧ ∀ g ∈ l₂, f.offset + f.len ≤ g.offset := by
  obtain ⟨l₁, l₂, rfl⟩ := append_of_mem hf
  have hp := h.tiling.apart.pairwise
  rw [pairwise_append, pairwise_cons] at hp
  exact ⟨l₁, l₂, rfl, fun g hg => hp.2.2 g hg f mem_cons_self, hp.2.1.1⟩

theorem around (h : Cut key payload fs) (hc : Collects payload fs ds r) {l₁ l₂ : List Fragment}
    (hfs : fs = l₁ ++ f :: l₂) (h₁ : ∀ g ∈ l₁, g.offset + g.len ≤ f.offset)
    (h₂ : ∀ g ∈ l₂, f.offset + f.len ≤ g.offset) :
    r.before f = got l₁ ds ∧ r.after f = (if f ∈ ds then [f.piece] else []) ++ got l₂ ds := by
  have hpieces : r.pieces = got l₁ ds ++ ((if f ∈ ds then [f.piece] else []) ++ got l₂ ds) := by
    rw [hc.pieces, hfs, got_append]
    congr 1
    rw [got, filter_cons]
    split_ifs <;> first | rfl | simp_all
  have hlow (p : Piece) (hp : p ∈ got l₁ ds) : decide (p.offset < f.offset) = true := by
    obtain ⟨g, hg, -, rfl⟩ := mem_got.1 hp
    have hmem : g ∈ fs := by
      rw [hfs]
      exact mem_append_left _ hg
    have h3 := h₁ g hg
    have h4 := h.pos g hmem
    rw [h.piece_offset hmem, decide_eq_true_eq]
    omega
  have hhigh (p : Piece) (hp : p ∈ (if f ∈ ds then [f.piece] else []) ++ got l₂ ds) :
      ¬ p.offset < f.offset := by
    rcases mem_append.1 hp with hp | hp
    · split_ifs at hp
      · rw [mem_singleton.1 hp, h.piece_offset (by rw [hfs]; simp)]
        exact lt_irrefl _
      · cases hp
    · obtain ⟨g, hg, -, rfl⟩ := mem_got.1 hp
      rw [h.piece_offset (by rw [hfs]; simp [hg])]
      have h3 := h₂ g hg
      omega
  rw [Reassembly.before, Reassembly.after, hpieces, takeWhile_append_of_pos hlow,
    dropWhile_append_of_pos hlow]
  cases hl : (if f ∈ ds then [f.piece] else []) ++ got l₂ ds with
  | nil => simp
  | cons p l =>
    have h3 := hhigh p (by rw [hl]; exact mem_cons_self)
    rw [takeWhile_cons_of_neg (by simpa using h3), dropWhile_cons_of_neg (by simpa using h3)]
    simp

theorem duplicate (h : Cut key payload fs) (hc : Collects payload fs ds r) (hf : f ∈ fs)
    (hd : f ∈ ds) : r.duplicate f = true := by
  obtain ⟨l₁, l₂, hfs, h₁, h₂⟩ := h.split hf
  have hafter := (h.around hc hfs h₁ h₂).2
  rw [if_pos hd] at hafter
  rw [Reassembly.duplicate, hafter]
  simp only [cons_append, head?_cons, h.piece_offset hf]
  have hlen : f.piece.len = f.len := rfl
  cases hm : f.more with
  | true => simp [hlen]
  | false =>
    have h3 := h.more f hf
    rw [hm, eq_comm, decide_eq_false_iff_not] at h3
    have h4 := h.le_length hf
    simp only [hlen, hc.ended f hf hd hm, h.stop_eq hf, decide_true, Bool.true_and, Bool.false_or,
      decide_eq_true_eq]
    omega

theorem fresh_piece (h : Cut key payload fs) (hr : r.Ok as) (hc : Collects payload fs ds r)
    (hf : f ∈ fs) (hd : f ∉ ds) :
    r.duplicate f = false ∧ r.overlaps f = false ∧ r.contradicts f = false ∧
    Collects payload fs (f :: ds) (r.keep f) := by
  obtain ⟨l₁, l₂, hfs, h₁, h₂⟩ := h.split hf
  obtain ⟨hbefore, hafter⟩ := h.around hc hfs h₁ h₂
  rw [if_neg hd, nil_append] at hafter
  have hpos := h.pos f hf
  have hstop := h.stop_eq hf
  have hle := h.le_length hf
  have hl₁ (g : Fragment) (hg : g ∈ l₁) : g ∈ fs := by
    rw [hfs]
    exact mem_append_left _ hg
  have hl₂ (g : Fragment) (hg : g ∈ l₂) : g ∈ fs := by
    rw [hfs]
    exact mem_append_right _ (mem_cons_of_mem _ hg)
  have hnext (p : Piece) (hp : p ∈ (r.after f).head?) : f.offset + f.len ≤ p.offset := by
    have hp' := mem_of_head? hp
    rw [hafter] at hp'
    obtain ⟨g, hg, -, rfl⟩ := mem_got.1 hp'
    rw [h.piece_offset (hl₂ g hg)]
    exact h₂ g hg
  have htotal : r.total ≠ 0 → r.total = payload.length := by
    intro h0
    by_contra h1
    refine h0 (hc.endless fun g hg hgd => ?_)
    by_contra h2
    exact h1 (hc.ended g hg hgd (by simpa using h2))
  have hmore (hm : f.more = false) : f.stop = payload.length := by
    have h3 := h.more f hf
    rw [hm, eq_comm, decide_eq_false_iff_not] at h3
    omega
  refine ⟨?_, ?_, ?_, ?_⟩
  · rw [Reassembly.duplicate]
    split
    · rename_i p hp
      have h3 := hnext p hp
      have h4 : p.offset ≠ f.offset := by omega
      simp [h4]
    · rfl
  · rw [Reassembly.overlaps, Bool.or_eq_false_iff]
    constructor
    · split
      · rename_i p hp
        have hp' : p ∈ r.before f := mem_of_getLast? hp
        rw [hr.stop_eq (Reassembly.mem_of_mem_before hp'), decide_eq_false_iff_not, not_lt]
        rw [hbefore] at hp'
        obtain ⟨g, hg, -, rfl⟩ := mem_got.1 hp'
        rw [h.piece_offset (hl₁ g hg)]
        exact h₁ g hg
      · rfl
    · split
      · rename_i p hp
        have h3 := hnext p hp
        rw [decide_eq_false_iff_not]
        omega
      · rfl
  · rw [Reassembly.contradicts, Bool.or_eq_false_iff, Bool.or_eq_false_iff]
    refine ⟨⟨?_, ?_⟩, ?_⟩
    · by_cases h0 : r.total = 0
      · simp [h0]
      · simp [h0]
        omega
    · cases hm : f.more with
      | true => rfl
      | false =>
        by_cases h0 : r.total = 0
        · simp [h0]
        · simp [hmore hm, htotal h0]
    · cases hm : f.more with
      | true => rfl
      | false =>
        rw [Bool.and_eq_false_iff]
        refine .inr (any_eq_false.2 fun p hp => ?_)
        rw [hr.stop_eq (Reassembly.mem_of_mem_after hp), hmore hm, decide_eq_true_eq, not_lt]
        rw [hafter] at hp
        obtain ⟨g, hg, -, rfl⟩ := mem_got.1 hp
        rw [h.piece_offset (hl₂ g hg)]
        exact h.le_length (hl₂ g hg)
  · refine ⟨?_, fun g hg hgd hgm => ?_, fun hall => ?_⟩
    · have hcongr (l : List Fragment) (hl : f ∉ l) : got l (f :: ds) = got l ds := by
        rw [got]
        congr 1
        refine filter_congr fun g hg => ?_
        have hne : g ≠ f := by
          rintro rfl
          exact hl hg
        simp [hne]
      have hn₁ : f ∉ l₁ := fun h0 => by
        have := h₁ f h0
        omega
      have hn₂ : f ∉ l₂ := fun h0 => by
        have := h₂ f h0
        omega
      have hgot : got (f :: l₂) (f :: ds) = f.piece :: got l₂ (f :: ds) := by
        rw [got, filter_cons, if_pos (by simp)]
        rfl
      rw [Reassembly.keep, hbefore, hafter, hfs, got_append, hgot, hcongr l₁ hn₁, hcongr l₂ hn₂]
    · cases hm : f.more with
      | false =>
        simp only [Reassembly.keep, hm]
        exact hmore hm
      | true =>
        simp only [Reassembly.keep, hm]
        rcases mem_cons.1 hgd with rfl | hgd
        · rw [hm] at hgm
          cases hgm
        · exact hc.ended g hg hgd hgm
    · have hm := hall f hf mem_cons_self
      simp only [Reassembly.keep, hm]
      exact hc.endless fun g hg hgd => hall g hg (mem_cons_of_mem _ hgd)

theorem sum_got (h : Cut key payload fs) (g : Fragment) (hg : g ∈ fs) (hgd : g ∉ ds) :
    ((got fs ds).map Piece.len).sum < payload.length := by
  obtain ⟨l₁, l₂, hfs, -, -⟩ := h.split hg
  have hle (l : List Fragment) : ((got l ds).map Piece.len).sum ≤ (l.map Fragment.len).sum := by
    rw [got, map_map]
    exact (filter_sublist.map _).sum_le_sum fun _ _ => Nat.zero_le _
  have hsum := h.tiling.sum
  have hpos := h.pos g hg
  have hskip : got (g :: l₂) ds = got l₂ ds := by
    rw [got, filter_cons, if_neg (by simpa using hgd)]
    rfl
  rw [hfs, map_append, sum_append, map_cons, sum_cons] at hsum
  rw [hfs, got_append, hskip, map_append, sum_append]
  have h1 := hle l₁
  have h2 := hle l₂
  omega

theorem got_all (hall : ∀ g ∈ fs, g ∈ ds) : got fs ds = fs.map Fragment.piece := by
  rw [got, filter_eq_self.2 fun g hg => by simpa using hall g hg]

theorem complete_iff (h : Cut key payload fs) (hr : r.Ok as) (hc : Collects payload fs ds r)
    (hne : payload ≠ []) : r.complete = true ↔ ∀ g ∈ fs, g ∈ ds := by
  have hlen : 0 < payload.length := length_pos_iff.2 hne
  simp only [Reassembly.complete, Bool.and_eq_true, decide_eq_true_eq]
  constructor
  · rintro ⟨h1, h2⟩ g hg
    by_contra hgd
    have h3 := h.sum_got g hg hgd
    rw [← hc.pieces, ← hr.received, h2] at h3
    refine h1 (hc.endless fun g' hg' hgd' => ?_)
    by_contra h4
    rw [hc.ended g' hg' hgd' (by simpa using h4)] at h3
    exact lt_irrefl _ h3
  · intro hall
    have hsum := h.tiling.sum
    have hrec : r.received = payload.length := by
      rw [hr.received, hc.pieces, got_all hall, map_map, ← hsum, Nat.zero_add]
      rfl
    -- the last fragment is the one that ends the datagram
    obtain ⟨g, hg⟩ : ∃ g, fs.getLast? = some g := by
      cases hfs : fs with
      | nil =>
        rw [hfs] at hsum
        simp at hsum
        omega
      | cons g l => exact ⟨_, getLast?_eq_some_getLast (cons_ne_nil g l)⟩
    have hgm := mem_of_getLast? hg
    have htotal : r.total = payload.length := by
      refine hc.ended g hgm (hall g hgm) ?_
      rw [h.more g hgm, h.tiling.last hg]
      simp
    exact ⟨by omega, by omega⟩

theorem assemble_eq (h : Cut key payload fs) (hr : r.Ok as) (hc : Collects payload fs ds r)
    (hne : payload ≠ []) (hall : ∀ g ∈ fs, g ∈ ds) (m : Bytes.Memory) :
    assemble r.pieces r.total m = payload := by
  have htile := hr.tiling ((h.complete_iff hr hc hne).2 hall)
  have hwhole : assemble r.pieces r.total m = (r.pieces.map Piece.data).flatten := htile.slice_copyAll
  rw [hwhole, hc.pieces, got_all hall, map_map]
  exact h.data

theorem cost_le (h : Cut key payload fs) (hr : r.Ok as) (hc : Collects payload fs ds r)
    (hf : f ∈ fs) (hd : f ∉ ds) : r.cost + f.cost ≤ ipfragMemory := by
  obtain ⟨l₁, l₂, hfs, -, -⟩ := h.split hf
  have hle (l : List Fragment) :
      ((got l ds).map fun p => ipfragPieceOverhead + p.len).sum ≤ (l.map Fragment.cost).sum := by
    rw [got, map_map]
    exact (filter_sublist.map _).sum_le_sum fun _ _ => Nat.zero_le _
  have hskip : got (f :: l₂) ds = got l₂ ds := by
    rw [got, filter_cons, if_neg (by simpa using hd)]
    rfl
  have hcost := h.cost
  rw [hfs, map_append, sum_append, map_cons, sum_cons] at hcost
  rw [hr.cost, hc.pieces, hfs, got_append, hskip, map_append, sum_append]
  have h1 := hle l₁
  have h2 := hle l₂
  omega

end Cut

/-! ### Making room -/

namespace State

/-- The datagrams in progress other than the one in slot `i`. -/
def others (s : State) (i : Fin ipfragSlots) : Finset (Fin ipfragSlots) :=
  Finset.univ.filter fun j => j ≠ i ∧ s.slots j ≠ none

theorem Ok.memory_of_alone (h : s.Ok as) (hr : s.slots i = some r)
    (hn : ∀ j, s.slots j ≠ none → j = i) : s.memoryUsed = r.cost := by
  rw [h.memory, Finset.sum_eq_single i]
  · rw [hr]
    rfl
  · intro j _ hj
    rw [not_not.1 fun h0 => hj (hn j h0)]
    rfl
  · exact fun h0 => absurd (Finset.mem_univ i) h0

theorem Ok.makeRoom_true (h : s.Ok as) (hr : s.slots i = some r) {cost fuel : ℕ}
    (hc : r.cost + cost ≤ ipfragMemory) (hfuel : (s.others i).card ≤ fuel) :
    (State.makeRoom i cost fuel s).2 = true := by
  induction fuel generalizing s with
  | zero =>
    have hn (j : Fin ipfragSlots) (hj : s.slots j ≠ none) : j = i := by
      by_contra hne
      have hmem : j ∈ s.others i := Finset.mem_filter.2 ⟨Finset.mem_univ j, hne, hj⟩
      rw [Finset.card_eq_zero.1 (Nat.le_zero.1 hfuel)] at hmem
      exact absurd hmem (Finset.notMem_empty j)
    rw [State.makeRoom, h.memory_of_alone hr hn]
    exact decide_eq_true hc
  | succ fuel ih =>
    rw [State.makeRoom]
    split_ifs with h0
    · rfl
    · cases ho : s.oldestExcept (some i) with
      | none =>
        have hn (j : Fin ipfragSlots) (hj : s.slots j ≠ none) : j = i :=
          Option.some.inj ((s.oldestExcept_spec _).2 ho j hj)
        rw [h.memory_of_alone hr hn] at h0
        exact absurd hc h0
      | some victim =>
        obtain ⟨h1, h2⟩ := (s.oldestExcept_spec _).1 victim ho
        have hvi : victim ≠ i := fun h3 => h2 (by rw [h3])
        apply ih (h.evict victim)
        · rw [evict_slots, update_of_ne hvi.symm]
          exact hr
        · have hsub : (s.evict victim).others i ⊆ (s.others i).erase victim := by
            intro j hj
            obtain ⟨-, hji, hjn⟩ := Finset.mem_filter.1 hj
            rw [evict_slots] at hjn
            have hjv : j ≠ victim := by
              rintro rfl
              exact hjn (update_self ..)
            rw [update_of_ne hjv] at hjn
            exact Finset.mem_erase.2 ⟨hjv, Finset.mem_filter.2 ⟨Finset.mem_univ j, hji, hjn⟩⟩
          have hmem : victim ∈ s.others i :=
            Finset.mem_filter.2 ⟨Finset.mem_univ victim, hvi, h1⟩
          have h3 := Finset.card_le_card hsub
          rw [Finset.card_erase_of_mem hmem] at h3
          omega

theorem card_others (s : State) (i : Fin ipfragSlots) : (s.others i).card ≤ ipfragSlots := by
  have h0 := Finset.card_le_univ (s.others i)
  rwa [Fintype.card_fin] at h0

end State

/-! ### One datagram among others -/

def Progress (key : Key) (payload : List UInt8) (fs ds : List Fragment) (s : State) : Prop :=
  (∀ f ∈ fs, f ∉ ds) ∧ (∀ i r, s.slots i = some r → r.key ≠ key) ∨
  ∃ i r, s.slots i = some r ∧ r.key = key ∧ Collects payload fs ds r

theorem Collects.congr {ds' : List Fragment} (h : Collects payload fs ds r)
    (hd : ∀ f ∈ fs, f ∈ ds ↔ f ∈ ds') : Collects payload fs ds' r where
  pieces := by
    rw [h.pieces, got]
    congr 1
    exact filter_congr fun f hf => by simp [hd f hf]
  ended f hf hfd := h.ended f hf ((hd f hf).2 hfd)
  endless hall := h.endless fun f hf hfd => hall f hf ((hd f hf).1 hfd)

theorem Progress.congr {ds' : List Fragment} (h : Progress key payload fs ds s)
    (hd : ∀ f ∈ fs, f ∈ ds ↔ f ∈ ds') : Progress key payload fs ds' s := by
  rcases h with ⟨h1, h2⟩ | ⟨i, r, h1, h2, h3⟩
  · exact .inl ⟨fun f hf hfd => h1 f hf ((hd f hf).2 hfd), h2⟩
  · exact .inr ⟨i, r, h1, h2, h3.congr hd⟩

/-- The datagram of a fragment, found or begun, holds just what has arrived. -/
theorem Progress.collects (h : Progress key payload fs ds s) (hok : s.Ok as) (now : ℕ) :
    ∃ s' i r started, s.slotFor key now = (s', i, r, started) ∧ s'.Ok as ∧ s'.slots i = some r ∧
      r.key = key ∧ Collects payload fs ds r := by
  obtain ⟨s', i, r, started, hs, h1, h2, h3, -, h4⟩ := hok.slotFor key now
  refine ⟨s', i, r, started, hs, h1, h2, h3, ?_⟩
  rcases h4 with rfl | ⟨rfl, hn, -⟩
  · rcases h with ⟨-, h5⟩ | ⟨j, t, h5, h6, h7⟩
    · exact absurd h3 (h5 i r h2)
    · obtain rfl := hok.unique i j r t h2 h5 (h3.trans h6.symm)
      cases h2.symm.trans h5
      exact h7
  · rcases h with ⟨h5, -⟩ | ⟨j, t, h5, h6, -⟩
    · refine ⟨?_, fun f hf hfd => absurd hfd (h5 f hf), fun _ => rfl⟩
      rw [got, filter_eq_nil_iff.2 fun f hf => by simpa using h5 f hf]
      rfl
    · exact absurd h6 ((s.find_spec key).2 hn j t h5)

/-- A fragment of the datagram arrives: nothing is handed on before the last one missing. -/
theorem Cut.input (h : Cut key payload fs) (hne : payload ≠ []) (hok : s.Ok as)
    (hp : Progress key payload fs ds s) (hf : f ∈ fs) (hmem : f ∈ as) {m : Kmalloc}
    (hm : m.piece = true) (now : ℕ) (hmiss : ∃ g ∈ fs, g ∉ ds) :
    ((∃ g ∈ fs, g ∉ f :: ds) → (s.ipfragInput m f now).2.1 = none ∧
      Progress key payload fs (f :: ds) (s.ipfragInput m f now).1) ∧
    ((∀ g ∈ fs, g ∈ f :: ds) → (s.ipfragInput m f now).2.1 = m.whole.map fun _ => payload) := by
  obtain ⟨s₀, hs₀⟩ : ∃ s₀, s₀ = s.count fun c => { c with fragments := c.fragments + 1 } := ⟨_, rfl⟩
  have hok₀ : s₀.Ok as := by
    rw [hs₀]
    exact hok.count _
  have hp₀ : Progress key payload fs ds s₀ := by
    rw [hs₀]
    exact hp
  obtain ⟨s₁, i, r, started, hs₁, hok₁, hr, hkey, hc⟩ := hp₀.collects hok₀ now
  have hrok := hok₁.slots i r hr
  have hmal := h.not_malformed hf
  have hfk := h.key f hf
  have hinput : s.ipfragInput m f now =
      (((s₁.place i r f).1.finish m (s₁.place i r f).2).1,
        ((s₁.place i r f).1.finish m (s₁.place i r f).2).2, started) := by
    rw [State.ipfragInput, hmal, hm, ← hs₀, hfk, hs₁]
    rfl
  rw [hinput]
  by_cases hd : f ∈ ds
  · have hplace : s₁.place i r f = (s₁.count fun c => { c with duplicates := c.duplicates + 1 }, none) := by
      rw [State.place, if_pos (h.duplicate hc hf hd)]
    have hiff (g : Fragment) (_ : g ∈ fs) : g ∈ ds ↔ g ∈ f :: ds := by
      rw [mem_cons]
      exact ⟨.inr, fun h0 => h0.elim (fun h1 => h1 ▸ hd) id⟩
    rw [hplace]
    refine ⟨fun _ => ⟨rfl, .inr ⟨i, r, hr, hkey, hc.congr hiff⟩⟩, fun hall => ?_⟩
    obtain ⟨g, hg, hgd⟩ := hmiss
    exact absurd ((hiff g hg).2 (hall g hg)) hgd
  · obtain ⟨h1, h2, h3, h4⟩ := h.fresh_piece hrok hc hf hd
    have hkeep := hrok.keep hmem (hfk.trans hkey.symm) (h.fits hf) hmal h1 h2 h3
    have hroom := hok₁.makeRoom_true hr (h.cost_le hrok hc hf hd) (s₁.card_others i)
    rcases hx : State.makeRoom i f.cost ipfragSlots s₁ with ⟨s₂, b⟩
    rw [hx] at hroom
    obtain rfl : b = true := hroom
    rw [State.place, h1, h2, h3, hx]
    simp only [Bool.or_false, Bool.false_eq_true, if_false]
    constructor
    · rintro ⟨g, hg, hgd⟩
      have hnc : ¬ (r.keep f).complete = true := fun h5 =>
        hgd ((h.complete_iff hkeep h4 hne).1 h5 g hg)
      rw [if_neg hnc]
      exact ⟨rfl, .inr ⟨i, r.keep f, update_self .., hkey, h4⟩⟩
    · intro hall
      rw [if_pos ((h.complete_iff hkeep h4 hne).2 hall)]
      rw [State.finish]
      cases m.whole with
      | none => rfl
      | some whole => exact congrArg some (h.assemble_eq hkeep h4 hne hall whole)

def SameFor (key : Key) (s s' : State) : Prop :=
  ∀ j r, r.key = key → (s'.slots j = some r ↔ s.slots j = some r)

theorem Progress.of_same {s' : State} (h : Progress key payload fs ds s) (hs : SameFor key s s') :
    Progress key payload fs ds s' := by
  rcases h with ⟨h1, h2⟩ | ⟨i, r, h1, h2, h3⟩
  · exact .inl ⟨h1, fun i r hr hk => h2 i r ((hs i r hk).1 hr) hk⟩
  · exact .inr ⟨i, r, (hs i r h2).2 h1, h2, h3⟩

theorem SameFor.trans {s₁ s₂ s₃ : State} (h₁ : SameFor key s₁ s₂) (h₂ : SameFor key s₂ s₃) :
    SameFor key s₁ s₃ := fun j r hr => (h₂ j r hr).trans (h₁ j r hr)

theorem sameFor_update {s' : State} {x : Option Reassembly} (hx : ∀ r ∈ x, r.key ≠ key)
    (hi : ∀ r, s.slots i = some r → r.key ≠ key) (hs : s'.slots = update s.slots i x) :
    SameFor key s s' := by
  intro j r hr
  rw [hs]
  by_cases hj : j = i
  · subst hj
    rw [update_self]
    exact iff_of_false (fun h0 => hx r h0 hr) fun h0 => hi r h0 hr
  · rw [update_of_ne hj]

namespace State

theorem release_stats (s : State) (i : Fin ipfragSlots) : (s.release i).stats = s.stats := by
  rw [release]
  split <;> rfl

theorem finish_slots (s : State) (m : Kmalloc) (t : Option Reassembly) :
    (s.finish m t).1.slots = s.slots := by
  cases t with
  | none => rfl
  | some t =>
    rw [finish]
    split <;> rfl

theorem finish_evicted (s : State) (m : Kmalloc) (t : Option Reassembly) :
    (s.finish m t).1.stats.evicted = s.stats.evicted := by
  cases t with
  | none => rfl
  | some t =>
    rw [finish]
    split <;> rfl

theorem sameFor_release (hi : ∀ r, s.slots i = some r → r.key ≠ key) :
    SameFor key s (s.release i) :=
  sameFor_update (fun _ h0 => by cases h0) hi (s.release_slots i)

theorem Ok.sameFor_place (h : s.Ok as) (hr : s.slots i = some r) (hk : r.key ≠ key) :
    s.stats.evicted ≤ (s.place i r f).1.stats.evicted ∧
    ((s.place i r f).1.stats.evicted = s.stats.evicted → SameFor key s (s.place i r f).1) := by
  have hi (t : Reassembly) (ht : s.slots i = some t) : t.key ≠ key := by
    cases hr.symm.trans ht
    exact hk
  have hrel (s' : State) (g : Stats → Stats) : ((s'.release i).count g).stats = g s'.stats :=
    congrArg g (s'.release_stats i)
  rw [State.place]
  split_ifs with hd hoc
  · exact ⟨le_rfl, fun _ _ _ _ => Iff.rfl⟩
  · rw [hrel]
    exact ⟨le_rfl, fun _ => sameFor_release hi⟩
  · obtain ⟨-, h2, h3, -⟩ := h.makeRoom i f.cost ipfragSlots
    rcases hx : State.makeRoom i f.cost ipfragSlots s with ⟨s', b⟩
    rw [hx] at h2 h3
    dsimp only at h2 h3
    have hsame (he : s'.stats.evicted = s.stats.evicted) : SameFor key s s' := by
      rcases h2.evicted with h4 | h4
      · exact fun j t _ => by rw [h4]
      · omega
    have hi' (t : Reassembly) (ht : s'.slots i = some t) : t.key ≠ key := hi t (h3 ▸ ht)
    cases b with
    | false =>
      rw [hrel]
      exact ⟨h2.le, fun he => (hsame he).trans (sameFor_release hi')⟩
    | true =>
      dsimp only
      split_ifs
      · exact ⟨h2.le, fun he => (hsame he).trans (sameFor_update (fun _ h0 => by cases h0) hi' rfl)⟩
      · refine ⟨h2.le, fun he => (hsame he).trans (sameFor_update (fun t ht => ?_) hi' rfl)⟩
        cases ht
        exact hk

theorem Ok.sameFor_input (h : s.Ok as) (hk : f.key ≠ key) {m : Kmalloc} {now : ℕ}
    (he : (s.ipfragInput m f now).1.stats.evicted = s.stats.evicted) :
    SameFor key s (s.ipfragInput m f now).1 := by
  obtain ⟨s₀, hs₀⟩ : ∃ s₀, s₀ = s.count fun c => { c with fragments := c.fragments + 1 } := ⟨_, rfl⟩
  have hsame₀ : SameFor key s s₀ := by
    rw [hs₀]
    exact fun _ _ _ => Iff.rfl
  have hev₀ : s₀.stats.evicted = s.stats.evicted := by
    rw [hs₀]
    rfl
  have hok₀ : s₀.Ok as := by
    rw [hs₀]
    exact h.count _
  rw [State.ipfragInput, ← hs₀] at he ⊢
  refine hsame₀.trans ?_
  dsimp only at he ⊢
  split_ifs at he ⊢ with hm hp
  · split
    · rename_i i hi
      obtain ⟨r, hr, hrk⟩ := (find_spec _ f.key).1 i hi
      refine sameFor_release (s := s₀.count _) fun t ht => ?_
      cases hr.symm.trans ht
      rw [hrk]
      exact hk
    · exact fun _ _ _ => Iff.rfl
  · exact fun _ _ _ => Iff.rfl
  · obtain ⟨s₁, i, r, started, hs₁, hok₁, hr, hrk, hsl, hev⟩ := hok₀.slotFor f.key now
    rw [hs₁] at he ⊢
    dsimp only at he ⊢
    rw [finish_evicted] at he
    rw [← hrk] at hk
    obtain ⟨hle, hsame⟩ := hok₁.sameFor_place (f := f) hr hk
    have hle₁ : s₀.stats.evicted ≤ s₁.stats.evicted := by
      rcases hev with rfl | ⟨-, -, -, h5, -⟩
      · exact le_rfl
      · exact h5
    have hstart : SameFor key s₀ s₁ := by
      rcases hev with rfl | ⟨-, -, h5, -⟩
      · exact fun _ _ _ => Iff.rfl
      · have hnone : s₀.slots i = none := h5.resolve_right (by omega)
        refine sameFor_update (i := i) (x := some r) (fun t ht => ?_) (fun t ht => ?_) (funext fun j => ?_)
        · cases ht
          exact hk
        · cases hnone.symm.trans ht
        · by_cases hj : j = i
          · subst hj
            rw [update_self, hr]
          · rw [update_of_ne hj, hsl j hj]
    refine hstart.trans ((hsame (by omega)).trans fun j t _ => ?_)
    rw [finish_slots]

theorem sameFor_expire {now : ℕ} (hd : ∀ i r, s.slots i = some r → r.key = key → now < r.deadline) :
    SameFor key s (s.ipfragExpire now).1 := by
  have hloop (l : List (Fin ipfragSlots)) : ∀ (s : State) (quotes : List (Header × List UInt8))
      (next : ℕ), (∀ i r, s.slots i = some r → r.key = key → now < r.deadline) →
      SameFor key s (expireLoop now l (s, quotes, next)).1 := by
    induction l with
    | nil => exact fun s quotes next _ _ _ _ => Iff.rfl
    | cons i l ih =>
      intro s quotes next hd
      rw [expireLoop]
      split
      · exact ih _ _ _ hd
      · rename_i r hr
        split
        · rename_i hle
          have hrel : SameFor key s (s.release i) := sameFor_release fun t ht hk => by
            have h1 := hd i t ht hk
            cases hr.symm.trans ht
            omega
          refine hrel.trans (ih _ _ _ fun j t ht hk => ?_)
          exact hd j t ((hrel j t hk).1 ht) hk
        · exact ih _ _ _ hd
  exact hloop _ _ _ _ hd

end State

/-! ### Every order of arrival -/

/-- Its own fragments arrive, with memory for them; those of other datagrams arrive and none is
given up for them; and time passes, but not beyond the deadline. -/
def Allowed (key : Key) (fs : List Fragment) (s : State) : Call → Prop
  | .input m f now =>
    if f.key = key then f ∈ fs ∧ m.piece = true
    else f.Fits ∧ (s.step (.input m f now)).stats.evicted = s.stats.evicted
  | .expire now => ∀ i r, s.slots i = some r → r.key = key → now < r.deadline

theorem Cut.progress (h : Cut key payload fs) (hne : payload ≠ []) {calls : List Call}
    (hok : s.Ok as) (hp : Progress key payload fs ds s)
    (hall : Run.Along State.step (Allowed key fs) s calls)
    (hmiss : ∃ g ∈ fs, g ∉ arrived calls ++ ds) :
    (∃ as, (Run.run State.step s calls).Ok as) ∧
    Progress key payload fs (arrived calls ++ ds) (Run.run State.step s calls) := by
  induction calls generalizing s as ds with
  | nil => exact ⟨⟨as, hok⟩, hp⟩
  | cons c calls ih =>
    obtain ⟨hc, hall⟩ := hall
    cases c with
    | expire now =>
      exact ih (hok.ipfragExpire now) (hp.of_same (State.sameFor_expire hc)) hall hmiss
    | input m f now =>
      have hiff (g : Fragment) : g ∈ arrived calls ++ f :: ds ↔ g ∈ f :: arrived calls ++ ds := by
        simp only [mem_append, mem_cons]
        tauto
      have hmiss' : ∃ g ∈ fs, g ∉ arrived calls ++ f :: ds := by
        obtain ⟨g, hg, hgd⟩ := hmiss
        exact ⟨g, hg, fun h0 => hgd ((hiff g).1 h0)⟩
      have hok' := hok.mono (fun g hg => mem_cons_of_mem f hg)
      have hnext : (s.step (.input m f now)).Ok (f :: as) ∧
          Progress key payload fs (f :: ds) (s.step (.input m f now)) := by
        by_cases hk : f.key = key
        · rw [Allowed, if_pos hk] at hc
          obtain ⟨g, hg, hgd⟩ := hmiss'
          have hgd' : g ∉ f :: ds := fun h0 => hgd (mem_append_right _ h0)
          refine ⟨(hok'.ipfragInput m now mem_cons_self (h.fits hc.1)).1, ?_⟩
          exact ((h.input hne hok' hp hc.1 mem_cons_self hc.2 now
            ⟨g, hg, fun h0 => hgd' (mem_cons_of_mem f h0)⟩).1 ⟨g, hg, hgd'⟩).2
        · rw [Allowed, if_neg hk] at hc
          refine ⟨(hok'.ipfragInput m now mem_cons_self hc.1).1, ?_⟩
          refine (hp.of_same (hok'.sameFor_input hk hc.2)).congr fun g hg => ?_
          have hgf : g ≠ f := by
            rintro rfl
            exact hk (h.key g hg)
          simp [hgf]
      obtain ⟨h1, h2⟩ := ih hnext.1 hnext.2 hall hmiss'
      exact ⟨h1, h2.congr fun g _ => hiff g⟩

/-- In any order, with duplicates and other fragments in between, nothing is handed on before the
last fragment missing, which gives the payload. -/
theorem Cut.deliver (h : Cut key payload fs) (hne : payload ≠ []) {earlier calls : List Call}
    (hearlier : ∀ g ∈ arrived earlier, g.Fits)
    (hnone : (Run.run State.step State.init earlier).find key = none)
    (hall : Run.Along State.step (Allowed key fs) (Run.run State.step State.init earlier) calls)
    (hmiss : ∃ g ∈ fs, g ∉ arrived calls) (hf : f ∈ fs) (m : Kmalloc) (hm : m.piece = true)
    (now : ℕ) :
    (Run.run State.step State.init (earlier ++ calls)).output (.input m f now) =
      if ∀ g ∈ fs, g ∈ arrived calls ∨ g = f then m.whole.map fun _ => payload else none := by
  have hstart : Progress key payload fs [] (Run.run State.step State.init earlier) :=
    .inl ⟨fun _ _ => not_mem_nil, (State.find_spec _ key).2 hnone⟩
  obtain ⟨⟨as, hok⟩, hp⟩ := h.progress hne (State.ok_run earlier hearlier) hstart hall
    (by simpa using hmiss)
  rw [append_nil] at hp
  obtain ⟨h1, h2⟩ := h.input hne (hok.mono fun g hg => mem_cons_of_mem f hg) hp hf
    mem_cons_self hm now hmiss
  have hiff : (∀ g ∈ fs, g ∈ arrived calls ∨ g = f) ↔ ∀ g ∈ fs, g ∈ f :: arrived calls := by
    simp only [mem_cons, or_comm]
  rw [Run.run_append]
  split_ifs with h0
  · exact h2 (hiff.1 h0)
  · rw [hiff] at h0
    simp only [not_forall, exists_prop] at h0
    exact (h1 h0).1

/-- A payload that fits one frame is not fragmented. Of one that does not fit, the fragments may be
delivered in any order: nothing is handed on before the last one missing, for which the payload
is. -/
def Reassembles (key : Key) (head body : List UInt8) : Prop :=
  (head.length + body.length ≤ 1500 - 20 →
    ∃ p, ipv4SendParts key head body = some [p] ∧ ipv4Input p = .inl (head ++ body)) ∧
  (1500 - 20 < head.length + body.length →
    ∃ ps fs, ipv4SendParts key head body = some ps ∧ ps.map ipv4Input = fs.map .inr ∧
      ∀ earlier calls, (∀ g ∈ arrived earlier, g.Fits) →
        (Run.run State.step State.init earlier).find key = none →
        Run.Along State.step (Allowed key fs) (Run.run State.step State.init earlier) calls →
        (∃ g ∈ fs, g ∉ arrived calls) →
        ∀ f ∈ fs, ∀ whole now,
          (Run.run State.step State.init (earlier ++ calls)).output
              (.input ⟨true, some whole⟩ f now) =
            if ∀ g ∈ fs, g ∈ arrived calls ∨ g = f then some (head ++ body) else none)

/-- Cutting a datagram and putting it together gives it back, as long as `kmalloc` gives memory. -/
theorem fragments_reassemble (key : Key) (head body : List UInt8)
    (hpos : 1 ≤ head.length + body.length) (hmax : head.length + body.length ≤ ipv4PayloadMax) :
    Reassembles key head body := by
  refine ⟨fun h => whole_sent key head body h, fun h => ?_⟩
  obtain ⟨ps, fs, h1, h2, hcut⟩ := cut_sent key head body h hmax
  have hne : head ++ body ≠ [] := by
    intro h0
    rw [← length_append, h0] at hpos
    exact absurd hpos (by decide)
  refine ⟨ps, fs, h1, h2, fun earlier calls h3 h4 h5 h6 f hf whole now => ?_⟩
  exact hcut.deliver hne h3 h4 h5 h6 hf ⟨true, some whole⟩ rfl now

def sentFragments (key : Key) (head body : List UInt8) : List Fragment :=
  ((ipv4SendParts key head body).getD []).filterMap fun p => (ipv4Input p).getRight?

/-- A header of three bytes and a body of 1485 do not fit one frame. -/
def twoFrames : List Fragment := sentFragments ⟨1, 2, 17, 7⟩ [1, 2, 3] (List.replicate 1485 4)

theorem fragments_reassemble_twoFrames :
    (1 ≤ [1, 2, 3].length + (List.replicate 1485 4).length ∧
      [1, 2, 3].length + (List.replicate 1485 4).length ≤ ipv4PayloadMax) ∧
    Reassembles ⟨1, 2, 17, 7⟩ [1, 2, 3] (List.replicate 1485 4) := by
  have hlen : (List.replicate 1485 4).length = 1485 := length_replicate
  refine ⟨⟨by rw [hlen]; decide, by rw [hlen]; decide⟩, ?_⟩
  apply fragments_reassemble ⟨1, 2, 17, 7⟩ [1, 2, 3] (List.replicate 1485 4)
  · rw [length_replicate]
    decide
  · rw [length_replicate]
    decide

/-- There is no memory for the whole datagram: nothing is handed on, and it is lost. -/
theorem no_memory_twoFrames : ∃ f₁ f₂, twoFrames = [f₁, f₂] ∧ f₁ ≠ f₂ ∧
    (Run.run State.step State.init [.input ⟨true, none⟩ f₁ 0]).output (.input ⟨true, none⟩ f₂ 0) =
      none ∧
    (Run.run State.step State.init [.input ⟨true, none⟩ f₁ 0, .input ⟨true, none⟩ f₂ 0]).find
      ⟨1, 2, 17, 7⟩ = none := by
  obtain ⟨d, hd⟩ : ∃ d : Fragment, d = ⟨⟨1, 2, 17, 7⟩, 0, true, ⟨0, 7, 0, 17, 1, 2⟩, []⟩ := ⟨_, rfl⟩
  refine ⟨twoFrames.getD 0 d, twoFrames.getD 1 d, ?_⟩
  subst hd
  refine ⟨by decide +kernel, by decide +kernel, by decide +kernel, by decide +kernel⟩

end Bashket.Net
