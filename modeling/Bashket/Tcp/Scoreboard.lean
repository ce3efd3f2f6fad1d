import Bashket.Tcp.SenderInput

/-!
# The scoreboard

`oooAdd` and `sackPrune` invent no edges, so every edge on the scoreboard is one that `noteSack` let
in, or an old `snd_una`. Seen from a point from which all edges lie less than half a turn ahead, the
hole `tcp_sack_next_hole` finds starts at or after the place it was asked from, and ends at the
start of a stretch.
-/

namespace Bashket.Tcp

open Serial List

/-- Both edges of every stretch satisfy `P`. -/
def Edges (P : Seq → Prop) (q : List Range) : Prop := ∀ r ∈ q, P r.start ∧ P r.stop

instance (P : Seq → Prop) [DecidablePred P] (q : List Range) : Decidable (Edges P q) := by
  unfold Edges
  infer_instance

section Edges

variable {P : Seq → Prop} {q : List Range} {start stop : Seq}

theorem Edges.nil : Edges P [] := fun _ h => absurd h not_mem_nil

theorem Edges.cons {r : Range} (hr : P r.start ∧ P r.stop) (hq : Edges P q) : Edges P (r :: q) :=
  forall_mem_cons.2 ⟨hr, hq⟩

theorem Edges.mono {Q : Seq → Prop} (h : ∀ x, P x → Q x) (hq : Edges P q) : Edges Q q :=
  fun r hr => ⟨h _ (hq r hr).1, h _ (hq r hr).2⟩

theorem joinRanges_edges (hq : Edges P q) (h1 : P start) (h2 : P stop) :
    Edges P ((joinRanges q start stop).1 :: (joinRanges q start stop).2) := by
  induction q generalizing start stop with
  | nil => exact Edges.nil.cons ⟨h1, h2⟩
  | cons r rest ih =>
    obtain ⟨hr, hrest⟩ := forall_mem_cons.1 hq
    unfold joinRanges
    split_ifs with ht hs hp hp
    · exact ih hrest hr.1 hr.2
    · exact ih hrest hr.1 h2
    · exact ih hrest h1 hr.2
    · exact ih hrest h1 h2
    · exact Edges.cons ⟨h1, h2⟩ (Edges.cons hr hrest)

theorem oooAdd_edges {q' : List Range} (hq : Edges P q) (h1 : P start) (h2 : P stop)
    (h : oooAdd q start stop = some q') : Edges P q' := by
  unfold oooAdd at h
  simp only at h
  split_ifs at h
  cases h
  intro r hr
  rcases mem_append.1 hr with hr | hr
  · exact hq r ((takeWhile_sublist _).mem hr)
  · exact joinRanges_edges (fun r hr => hq r ((dropWhile_sublist _).mem hr)) h1 h2 r hr

theorem noteBlock_edges {sndMax ack : Seq} {b : Range} (hq : Edges P q)
    (hb : lt b.start b.stop = true → gt b.start ack = true → gt b.stop sndMax = false →
      P b.start ∧ P b.stop) : Edges P (noteBlock sndMax ack q b) := by
  unfold noteBlock
  split_ifs with hc
  · exact hq
  · simp only [Bool.or_eq_true, Bool.not_eq_true', not_or, Bool.not_eq_true,
      Bool.not_eq_false] at hc
    obtain ⟨h1, h2⟩ := hb hc.1.1 hc.1.2 hc.2
    cases ho : oooAdd q b.start b.stop with
    | none => exact hq
    | some q' => exact oooAdd_edges hq h1 h2 ho

/-- The blocks of a segment that the check of `tcp_input` lets onto the scoreboard. -/
def notedBlocks (s : Sending) (g : Segment) : List Range :=
  if s.sackOk && !g.options.isEmpty then
    (parseOptions g.options).sack.filter fun b =>
      lt b.start b.stop && gt b.start g.ack && !gt b.stop s.sndMax
  else []

theorem noteSack_edges {s : Sending} {g : Segment} (hq : Edges P s.sacked)
    (hb : Edges P (notedBlocks s g)) : Edges P (noteSack s g).sacked := by
  unfold noteSack
  unfold notedBlocks at hb
  split_ifs with hc
  · rw [if_pos hc] at hb
    simp only
    generalize (parseOptions g.options).sack = blocks at hb
    generalize s.sacked = q at hq
    induction blocks generalizing q with
    | nil => exact hq
    | cons b rest ih =>
      refine ih (fun r hr => hb r ?_) _ (noteBlock_edges hq fun h1 h2 h3 => ?_)
      · rw [mem_filter] at hr ⊢
        exact ⟨mem_cons_of_mem _ hr.1, hr.2⟩
      · exact hb b (mem_filter.2 ⟨mem_cons_self, by simp [h1, h2, h3]⟩)
  · exact hq

/-- The edges left are the new `snd_una`, or old ones beyond it. -/
theorem sackPrune_edges (una : Seq) (hq : Edges P q) (huna : P una) :
    Edges P (sackPrune q una) := by
  intro r hr
  obtain ⟨r', hr', h⟩ := mem_filterMap.1 hr
  split_ifs at h with h1 h2
  · cases h
    exact ⟨huna, (hq r' hr').2⟩
  · obtain rfl := Option.some.inj h
    exact hq r' hr'

theorem sackPrune_beyond {una : Seq} :
    ∀ r ∈ sackPrune q una, lt r.start una = false ∧ gt r.stop una = true := by
  intro r hr
  obtain ⟨r', hr', h⟩ := mem_filterMap.1 hr
  split_ifs at h with h1 h2
  · cases h
    refine ⟨?_, by simpa using h1⟩
    simp [lt]
  · cases h
    exact ⟨by simpa using h2, by simpa using h1⟩

end Edges

/-- The hole found from `pos` on, seen from a point `v` from which everything lies less than half a
turn ahead. -/
theorem sackNextHole_spec {v : Seq} {q : List Range} {pos start len : Seq}
    (hq : Edges (fun x => 2 * ahead v x < 2 ^ 32) q) (hpos : 2 * ahead v pos < 2 ^ 32)
    (h : sackNextHole q pos = some (start, len)) :
    ahead v pos ≤ ahead v start ∧ (start = pos ∨ ∃ r ∈ q, start = r.stop) ∧
    ∃ r ∈ q, len = r.start - start ∧ ahead v start < ahead v r.start := by
  induction q generalizing pos with
  | nil => cases h
  | cons r rest ih =>
    obtain ⟨⟨hstart, hstop⟩, hrest⟩ := forall_mem_cons.1 hq
    unfold sackNextHole at h
    split_ifs at h with h1 h2
    · obtain ⟨i1, i2, r', hr', i3⟩ := ih hrest hpos h
      refine ⟨i1, ?_, r', mem_cons_of_mem _ hr', i3⟩
      rcases i2 with i2 | ⟨r'', hr'', i2⟩
      · exact .inl i2
      · exact .inr ⟨r'', mem_cons_of_mem _ hr'', i2⟩
    · cases h
      exact ⟨le_rfl, .inl rfl, r, mem_cons_self, rfl, (lt_iff (by omega) (by omega)).1 h2⟩
    · have hlt : ahead v pos < ahead v r.stop := by
        rw [Bool.not_eq_true', Bool.not_eq_false] at h1
        exact (lt_iff (by omega) (by omega)).1 h1
      obtain ⟨i1, i2, r', hr', i3⟩ := ih hrest hstop h
      refine ⟨hlt.le.trans i1, ?_, r', mem_cons_of_mem _ hr', i3⟩
      rcases i2 with i2 | ⟨r'', hr'', i2⟩
      · exact .inr ⟨r, mem_cons_self, i2⟩
      · exact .inr ⟨r'', mem_cons_of_mem _ hr'', i2⟩

end Bashket.Tcp
