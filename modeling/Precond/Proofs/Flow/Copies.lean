import Mathlib.Data.Fintype.BigOperators
import Precond.Proofs.Flow.Loops
import Precond.Proofs.Flow.Unroll
import Precond.Proofs.Run.Closed

/-! The copies of the blocks of a subroutine that a walk meets. Counts are dropped where a loop is
left, so that no count tells of itself how far the walk is. But on a way from a copy back to it the
block that the search has left last is a header whose loop the way does not leave, and its count
rises (`Graph.Leads.acyclic`). So all copies on a way are different, and the unroll bound limits how
many there are (`Graph.Trail.length_le`).

The block that a copy is taken to be entered from is the one that control comes from, unless the block
is the entry, or a header that control comes to from its loop along an edge that is no back edge
(`Graph.predFor_of_way`). -/

namespace Precond

open IR Relation

namespace Flow

/-- A block with the counts of the headers. -/
abbrev Copy := String × (String → Nat)

namespace Graph

/-- A copy leads to another one along an edge. -/
structure Leads (g : Graph) (c d : Copy) : Prop where
  edge : d.1 ∈ g.succsOf c.1
  counts (h : String) : d.2 h = if d.1 ∈ g.loopOf h then
    c.2 h + (if g.isBackEdge c.1 d.1 ∧ d.1 = h then 1 else 0) else 0

/-- A way from the entry, the latest copy first, along which counts stay below a bound. -/
inductive Trail (g : Graph) (below : Nat) : List Copy → Prop
  | entry : 0 < below → Trail g below [(g.entry, fun _ => 0)]
  | step : Trail g below (c :: past) → g.Leads c d → (∀ h, d.2 h < below) →
    Trail g below (d :: c :: past)

/-- A copy of a block that is reached. -/
def Reached (g : Graph) (c : Copy) : Prop := ReflTransGen (fun a b => b ∈ g.succsOf a) g.entry c.1

variable {g : Graph} {c d : Copy} {below : Nat} {trail : List Copy}

theorem Reached.trans (hc : g.Reached c) (h : TransGen g.Leads c d) : g.Reached d := by
  induction h with
  | single h => exact hc.tail h.edge
  | tail _ h ih => exact ih.tail h.edge

/-- On a way from a copy back to it there is a copy whose block has the highest rank. -/
theorem exists_top {rank : String → Nat} {top : Nat} (hrank : ∀ d, g.Reached d → rank d.1 < top)
    (hc : g.Reached c) (hcycle : TransGen g.Leads c c) :
    ∃ d, g.Reached d ∧ TransGen g.Leads d d ∧
      ∀ e, TransGen g.Leads d e → TransGen g.Leads e d → rank e.1 ≤ rank d.1 := by
  let S : Set Copy := {d | TransGen g.Leads c d ∧ TransGen g.Leads d c}
  obtain ⟨d, ⟨hcd, hdc⟩, hmin⟩ :=
    (measure fun d : Copy => top - rank d.1).wf.has_min S ⟨c, hcycle, hcycle⟩
  refine ⟨d, hc.trans hcd, hdc.trans hcd, fun e hde hed => ?_⟩
  have hle : ¬ top - rank e.1 < top - rank d.1 := hmin e ⟨hcd.trans hde, hed.trans hdc⟩
  have htop : rank e.1 < top := hrank e (hc.trans (hcd.trans hde))
  omega

/-- No copy comes to itself again. -/
theorem Leads.acyclic (hg : g.Searched) (hc : g.Reached c) : ¬ TransGen g.Leads c c := by
  intro hcycle
  obtain ⟨rank, top, hrank⟩ := hg.ranked
  obtain ⟨d, hd, hdd, hmax⟩ := exists_top (fun e he => (hrank e.1 he).1) hc hcycle
  -- an edge to the highest block is a back edge
  have hback {e : Copy} (hde : TransGen g.Leads d e) (hed : TransGen g.Leads e d)
      (hedge : d.1 ∈ g.succsOf e.1) : g.isBackEdge e.1 d.1 := by
    have hle : rank e.1 ≤ rank d.1 := hmax e hde hed
    exact ((hrank e.1 (hd.trans hde)).2 _ hedge).resolve_right (Nat.not_lt.mpr hle)
  -- the whole way is in the loop of that block
  have hloop {e : Copy} (hde : TransGen g.Leads d e) (hed : TransGen g.Leads e d) :
      e.1 ∈ g.loopOf d.1 := by
    induction hed using TransGen.head_induction_on with
    | single hstep => exact hg.latch_mem (hback hde (.single hstep) hstep.edge)
    | @head e f hstep hfd ih =>
      have hf : f.1 ∈ g.loopOf d.1 := ih (hde.tail hstep)
      by_cases hfd' : f.1 = d.1
      · exact hg.latch_mem (hback hde (.head hstep hfd) (hfd' ▸ hstep.edge))
      · exact hg.closed hf hfd' hstep.edge
  -- on the way the count of the block does not drop
  have hcount {e : Copy} (hde : TransGen g.Leads d e) (hed : TransGen g.Leads e d) :
      d.2 d.1 ≤ e.2 d.1 := by
    induction hde with
    | single hstep =>
      rw [hstep.counts, if_pos (hloop (.single hstep) hed)]
      exact Nat.le_add_right ..
    | tail hdf hstep ih =>
      rw [hstep.counts, if_pos (hloop (hdf.tail hstep) hed)]
      exact (ih (.head hstep hed)).trans (Nat.le_add_right ..)
  -- and it rises where the way comes back to it
  obtain ⟨e, hde, hstep⟩ := TransGen.tail'_iff.mp hdd
  have hde : TransGen g.Leads d e := hdd.trans_left hde
  have hlatch : g.isBackEdge e.1 d.1 := hback hde (.single hstep) hstep.edge
  have hrise : d.2 d.1 = e.2 d.1 + 1 := by
    rw [hstep.counts, if_pos (hg.header_mem hlatch), if_pos ⟨hlatch, rfl⟩]
  have hle : d.2 d.1 ≤ e.2 d.1 := hcount hde (.single hstep)
  omega

/-- A copy on a way from the entry: only the counts of blocks of the graph are not zero. -/
structure Visited (g : Graph) (below : Nat) (c : Copy) : Prop where
  reached : g.Reached c
  block : c.1 ∈ g.blocks.keys
  below (h : String) : c.2 h < below
  zero : h ∉ g.blocks.keys → c.2 h = 0

theorem Visited.step (hg : g.Searched) (hc : g.Visited below c) (hstep : g.Leads c d)
    (hd : ∀ h, d.2 h < below) : g.Visited below d where
  reached := hc.reached.trans (.single hstep)
  block := hg.succs c.1 hstep.edge
  below := hd
  zero {h} hh := by
    have hne : d.1 ≠ h := fun heq => hh (heq ▸ hg.succs c.1 hstep.edge)
    have hnot : ¬ (g.isBackEdge c.1 d.1 ∧ d.1 = h) := fun hb => hne hb.2
    rw [hstep.counts, hc.zero hh, if_neg hnot, Nat.add_zero, ite_self]

theorem Trail.visited (hg : g.Searched) (ht : g.Trail below trail) :
    ∀ c ∈ trail, g.Visited below c := by
  induction ht with
  | entry hpos =>
    intro c hc
    cases List.mem_singleton.mp hc
    exact ⟨.refl, hg.entry, fun _ => hpos, fun _ => rfl⟩
  | step _ hstep hd ih =>
    intro e he
    rcases List.mem_cons.mp he with rfl | he
    · exact (ih _ List.mem_cons_self).step hg hstep hd
    · exact ih e he

theorem Trail.pairwise (ht : g.Trail below trail) :
    trail.Pairwise fun d c => TransGen g.Leads c d := by
  induction ht with
  | entry => exact List.pairwise_singleton ..
  | step _ hstep _ ih =>
    refine List.pairwise_cons.mpr ⟨fun e he => ?_, ih⟩
    rcases List.mem_cons.mp he with rfl | he
    · exact .single hstep
    · exact ((List.pairwise_cons.mp ih).1 e he).tail hstep

/-- All copies on a way are different. -/
theorem Trail.nodup (hg : g.Searched) (ht : g.Trail below trail) : trail.Nodup := by
  refine ht.pairwise.imp_of_mem fun {d c} hd _ hcd heq => ?_
  subst heq
  exact Leads.acyclic hg (ht.visited hg d hd).reached hcd

theorem Visited.ext (hc : g.Visited below c) (hd : g.Visited below d) (hblock : c.1 = d.1)
    (hcounts : ∀ h ∈ g.blocks.keys, c.2 h = d.2 h) : c = d := by
  refine Prod.ext hblock (funext fun h => ?_)
  by_cases hh : h ∈ g.blocks.keys
  · exact hcounts h hh
  · rw [hc.zero hh, hd.zero hh]

/-- There are at most as many copies as ways to count the laps around each block. -/
theorem Trail.length_le (hg : g.Searched) (ht : g.Trail below trail) :
    trail.length ≤ g.blocks.length * below ^ g.blocks.length := by
  classical
  let blocks := g.blocks.keys.toFinset
  let counts (c : Copy) : (h : String) → h ∈ blocks → Nat := fun h _ => c.2 h
  have hcard : blocks.card ≤ g.blocks.length :=
    (List.toFinset_card_le _).trans (Table.length_keys g.blocks).le
  have hpos : 0 < below := by
    cases ht with
    | entry hpos => exact hpos
    | step _ _ hd => exact (Nat.zero_le _).trans_lt (hd "")
  have hmaps : ∀ c ∈ trail.toFinset, (c.1, counts c) ∈ blocks ×ˢ blocks.pi fun _ => .range below := by
    intro c hc
    have hv : g.Visited below c := ht.visited hg c (List.mem_toFinset.mp hc)
    refine Finset.mem_product.mpr ⟨List.mem_toFinset.mpr hv.block, Finset.mem_pi.mpr fun h _ => ?_⟩
    exact Finset.mem_range.mpr (hv.below h)
  have hinj : Set.InjOn (fun c : Copy => (c.1, counts c)) trail.toFinset := by
    intro c hc d hd heq
    obtain ⟨hblock, hcounts⟩ := Prod.mk.inj heq
    refine (ht.visited hg c (List.mem_toFinset.mp hc)).ext
      (ht.visited hg d (List.mem_toFinset.mp hd)) hblock fun h hh => ?_
    exact congrFun (congrFun hcounts h) (List.mem_toFinset.mpr hh)
  calc trail.length
    _ = trail.toFinset.card := (List.toFinset_card_of_nodup (ht.nodup hg)).symm
    _ ≤ (blocks ×ˢ blocks.pi fun _ => Finset.range below).card :=
      Finset.card_le_card_of_injOn _ hmaps hinj
    _ = blocks.card * below ^ blocks.card := by simp
    _ ≤ g.blocks.length * below ^ g.blocks.length :=
      Nat.mul_le_mul hcard (Nat.pow_le_pow_right hpos hcard)

/-! ### Copies in contexts -/

/-- The copy of a block in an unrolling context. -/
def copy (g : Graph) (u : Unroll) (t : String) : Copy := (t, (g.restrict u t).count)

/-- A context in which a copy of the block can be settled: each header that counts has the block in
its loop. -/
structure Proper (g : Graph) (bound : Int) (t : String) (u : Unroll) : Prop extends u.Tidy bound where
  looped : ∀ e ∈ u, t ∈ g.loopOf e.1

theorem proper_restrict {bound : Int} {u : Unroll} (hu : u.Tidy bound) (g : Graph) (t : String) :
    g.Proper bound t (g.restrict u t) where
  sorted := hu.sorted.filter _
  counts e he := hu.counts e (List.mem_of_mem_filter he)
  looped _ he := List.contains_iff_mem.mp (List.mem_filter.mp he).2

variable {u : Unroll} {past : List Copy}

theorem trail_entry (hpos : 0 < below) : g.Trail below [g.copy [] g.entry] := by
  have hcopy : g.copy [] g.entry = (g.entry, fun _ => 0) := Prod.ext rfl (funext fun _ => rfl)
  rw [hcopy]
  exact .entry hpos

theorem Trail.lt (ht : g.Trail below (c :: past)) (h : String) : c.2 h < below := by
  cases ht with
  | entry hpos => exact hpos
  | step _ _ hc => exact hc h

theorem Trail.leads (ht : g.Trail below (d :: c :: past)) : g.Leads c d := by
  cases ht with
  | step _ hstep _ => exact hstep

/-- A walk goes on along an edge, unless the edge is cut. -/
theorem Trail.along (ht : g.Trail below (g.copy u a :: past)) (hedge : b ∈ g.succsOf a)
    (hcut : g.isBackEdge a b → (g.restrict u a).count b + 1 < below) :
    g.Trail below ((b, (g.along (g.restrict u a) a b).count) :: g.copy u a :: past) := by
  have hbelow (h : String) : (g.restrict u a).count h < below := ht.lt h
  refine ht.step ⟨hedge, g.count_along _ a b⟩ fun h => ?_
  dsimp only
  rw [count_along]
  split
  · split
    · rename_i hb
      exact hb.2 ▸ hcut hb.1
    · exact hbelow h
  · exact (Nat.zero_le _).trans_lt (hbelow h)

theorem copy_forward (hb : b ∈ g.forward a) : g.copy (g.restrict (g.restrict u a) b) b =
    (b, (g.along (g.restrict u a) a b).count) := by
  have hback : ¬ g.isBackEdge a b := by simpa using (List.mem_filter.mp hb).2
  rw [copy, Graph.along, if_neg hback]
  simp [restrict, List.filter_filter]

theorem copy_back (hback : g.isBackEdge a b) :
    g.copy ((g.restrict u a).withCount b ((g.restrict u a).count b + 1)) b =
      (b, (g.along (g.restrict u a) a b).count) := by
  rw [copy, Graph.along, if_pos hback]

theorem Leads.forward (hb : b ∈ g.forward a) :
    g.Leads (g.copy u a) (g.copy (g.restrict (g.restrict u a) b) b) := by
  rw [copy_forward hb]
  exact ⟨(List.mem_filter.mp hb).1, g.count_along _ a b⟩

theorem Leads.back (hedge : b ∈ g.succsOf a) (hback : g.isBackEdge a b) : g.Leads (g.copy u a)
    (g.copy ((g.restrict u a).withCount b ((g.restrict u a).count b + 1)) b) := by
  rw [copy_back hback]
  exact ⟨hedge, g.count_along _ a b⟩

theorem Trail.forward (ht : g.Trail below (g.copy u a :: past)) (hb : b ∈ g.forward a) :
    g.Trail below (g.copy (g.restrict (g.restrict u a) b) b :: g.copy u a :: past) := by
  obtain ⟨hedge, hback⟩ := List.mem_filter.mp hb
  rw [copy_forward hb]
  exact ht.along hedge fun h => absurd h (by simpa using hback)

theorem Trail.back (ht : g.Trail below (g.copy u a :: past)) (hedge : b ∈ g.succsOf a)
    (hback : g.isBackEdge a b) (hcut : (g.restrict u a).count b + 1 < below) :
    g.Trail below (g.copy ((g.restrict u a).withCount b ((g.restrict u a).count b + 1)) b ::
      g.copy u a :: past) := by
  rw [copy_back hback]
  exact ht.along hedge fun _ => hcut

end Graph

end Flow

/-! ### Where control comes from -/

/-- Control may go from one block to another: a jump names it, or it is behind the block and control may
run into it. A block without a name is not run into. -/
inductive IR.Sub.Goes (s : Sub) (a b : String) : Prop
  | jump : s.at? a = some (blk, behind) → j ∈ blk.jumps → Flow.Jump.target? j = some b →
      (s.at? b).isSome → s.Goes a b
  | next : s.at? a = some (blk, some b) → Flow.fallsThrough blk → b ≠ "" → s.Goes a b

/-- The blocks that control goes through from the entry on, the latest first. -/
inductive IR.Sub.Way (s : Sub) : List String → Prop
  | entry : s.first? = some e → s.Way [e]
  | step : s.Way (a :: past) → s.Goes a b → s.Way (b :: a :: past)

namespace Flow.Graph

/-- The context of the copy of a block that a way leads to. -/
def context (g : Graph) : List String → Unroll
  | b :: a :: past => g.along (context g (a :: past)) a b
  | _ => []

/-- The contexts in which a walk that follows a way settles the copies of its blocks. -/
inductive Keyed (g : Graph) : List String → Unroll → Prop
  | entry : Keyed g [g.entry] (g.restrict [] g.entry)
  | forward : Keyed g (a :: past) u → b ∈ g.forward a →
    Keyed g (b :: a :: past) (g.restrict (g.restrict u b) b)
  | back : Keyed g (a :: past) u → g.isBackEdge a b →
    Keyed g (b :: a :: past) (g.restrict (u.withCount b (u.count b + 1)) b)

variable {g : Graph} {s : Sub} {a b p : String} {past : List String} {u : Unroll}

theorem Of.succ_of_goes (hg : g.Of s) (h : s.Goes a b) : b ∈ g.succsOf a := by
  cases h with
  | jump ha hj ht hb => exact hg.mem_succsOf_of_jump ha hj ht hb
  | @next blk ha hfalls hne =>
    have hkey : b ∈ g.blocks.keys :=
      hg.mem_keys.mpr (Sub.at?_isSome (mem_of_follow (List.mem_reverse.mp (List.mem_of_find?_eq_some ha))))
    rw [hg.succsOf, ha, Option.map_some, Option.getD_some, behind?, if_pos hfalls]
    refine List.mem_eraseDups.mpr (List.mem_filter.mpr ⟨?_, List.contains_iff_mem.mpr hkey⟩)
    refine List.mem_append_right _ (List.mem_filter.mpr ⟨Option.mem_toList.mpr rfl, ?_⟩)
    exact decide_eq_true hne

/-- A block that control may run into is a successor, if it has a name. -/
theorem Of.behind_mem (hg : g.Of s) (hnamed : ∀ b ∈ s.blks, b.tid ≠ "")
    (h : (g.fallthrough.lookup a).join = some b) : b ∈ g.succsOf a := by
  rw [hg.fallthrough] at h
  cases hat : s.at? a with
  | none =>
    rw [hat] at h
    cases h
  | some p =>
    rw [hat] at h
    obtain ⟨blk, next⟩ := p
    have hnext : behind? (blk, next) = some b := h
    rw [behind?] at hnext
    split at hnext
    · rename_i hfalls
      cases hnext
      have hfollow := List.mem_reverse.mp (List.mem_of_find?_eq_some hat)
      obtain ⟨c, hc, rfl⟩ := List.mem_map.mp (mem_of_follow hfollow)
      exact hg.succ_of_goes (.next hat hfalls (hnamed c hc))
    · cases hnext

theorem Keyed.context (h : g.Keyed past u) : u = g.context past := by
  induction h with
  | entry => rfl
  | forward _ hb ih =>
    have hback := (List.mem_filter.mp hb).2
    rw [Graph.context, ← ih, along, if_neg (by simpa using hback)]
    simp [restrict, List.filter_filter]
  | back _ hback ih => rw [Graph.context, ← ih, along, if_pos hback]

/-- A header that counts has the block in its loop. -/
theorem mem_loopOf_of_count {h : String} (hcount : 0 < (g.context (b :: past)).count h) :
    b ∈ g.loopOf h := by
  cases past with
  | nil => cases hcount
  | cons a past =>
    rw [context, count_along] at hcount
    by_contra hnot
    rw [if_neg hnot] at hcount
    exact Nat.lt_irrefl 0 hcount

theorem isSome_of_mem_loopOf {x : String} (hx : x ∈ g.loopOf b) : (g.loops.lookup b).isSome := by
  rw [loopOf] at hx
  cases hl : g.loops.lookup b with
  | none =>
    rw [hl] at hx
    cases hx
  | some body => rfl

/-- The predecessor that a copy of a block is entered from is the only one whose edge is a back edge just
if control has come back to the block. -/
theorem predFor_eq_some (hp : g.predFor b u = some p) (a : String) : a = p ↔ a ∈ g.predsOf b ∧
    ((g.loops.lookup b).isSome → g.isBackEdge a b = decide (0 < u.count b)) := by
  rw [predFor] at hp
  split at hp
  · rename_i q hone
    cases hp
    rw [← List.mem_singleton, ← hone]
    split
    · rename_i hheader
      simp [hheader]
    · rename_i hheader
      simp [hheader]
  · cases hp

/-- Control comes to a header from its own loop, and the edge is no back edge, although it has come back
to the header before. -/
def Sideways (g : Graph) (b : String) (past : List String) : Prop :=
  ∃ a, past.head? = some a ∧ g.isBackEdge a b = false ∧ 0 < (g.context past).count b

theorem sideways_cons : g.Sideways b (a :: past) ↔
    g.isBackEdge a b = false ∧ 0 < (g.context (a :: past)).count b := by
  simp [Sideways]

/-- Control counts where it comes to a header along a back edge, or otherwise from its loop. -/
theorem count_context_pos (hs : g.Searched) : 0 < (g.context (b :: a :: past)).count b ↔
    g.isBackEdge a b ∨ 0 < (g.context (a :: past)).count b := by
  rw [context, count_along]
  by_cases hback : g.isBackEdge a b
  · rw [if_pos (hs.header_mem hback), if_pos ⟨hback, rfl⟩]
    exact iff_of_true (Nat.succ_pos _) (.inl hback)
  rw [or_iff_right hback]
  split
  · rw [if_neg fun h => hback h.1, Nat.add_zero]
  · rename_i hnot
    refine iff_of_false (Nat.lt_irrefl 0) fun hcount => hnot ?_
    obtain ⟨e, he, rfl, -⟩ := hs.mem_loopOf.mp (mem_loopOf_of_count hcount)
    exact hs.header_mem (List.contains_iff_mem.mpr he)

/-- Where control comes along an edge, it comes from the block that it is taken to come from, unless it
comes to a header sideways. -/
theorem predFor_of_edge (hs : g.Searched) (hedge : b ∈ g.succsOf a)
    (hp : g.predFor b (g.context (b :: a :: past)) = some p) : a = p ↔ ¬ g.Sideways b (a :: past) := by
  have hcount : 0 < (g.context (b :: a :: past)).count b ↔
    g.isBackEdge a b ∨ 0 < (g.context (a :: past)).count b := count_context_pos hs
  rw [predFor_eq_some hp, and_iff_right (hs.pred_of_succ hedge), sideways_cons]
  by_cases hback : g.isBackEdge a b
  · rw [hback, decide_eq_true (hcount.mpr (.inl hback))]
    simp
  rw [or_iff_right hback] at hcount
  rw [Bool.eq_false_iff.mpr hback, ← hcount]
  constructor
  · rintro heq ⟨-, hpos⟩
    have hheader := isSome_of_mem_loopOf (mem_loopOf_of_count hpos)
    exact of_decide_eq_false (heq hheader).symm hpos
  · intro hno _
    exact (decide_eq_false fun hpos => hno ⟨rfl, hpos⟩).symm

/-- A block that the entry is taken to be entered from is not reached. -/
theorem predFor_of_entry (hg : ofSub s = .ok g) (hd : (s.blks.map Blk.tid).Nodup)
    (hp : g.predFor g.entry [] = some p) : ¬ ReflTransGen s.Goes g.entry p := by
  intro hreach
  have hof : g.Of s := of_ofSub hg
  obtain ⟨hpred, hforward⟩ := (predFor_eq_some hp p).mp rfl
  have hreached : ReflTransGen (fun a b => b ∈ g.succsOf a) g.entry p :=
    hreach.lift id fun _ _ => hof.succ_of_goes
  have hback : g.isBackEdge p g.entry := (searched_ofSub hg).back_entry hreached (succ_of_pred hg hd hpred)
  have hcount := hforward (isSome_of_mem_loopOf (hof.header hback))
  rw [hback] at hcount
  cases hcount

/-- A copy of a block that control comes to is entered from the block that it is taken to be entered
from, unless it is the entry, or a header that control comes to sideways. The block that the entry is
taken to be entered from is not reached. -/
theorem predFor_of_way (hg : ofSub s = .ok g) (hd : (s.blks.map Blk.tid).Nodup)
    (hway : s.Way (b :: past)) (hkey : g.Keyed (b :: past) u) (hp : g.predFor b u = some p) :
    (past.head? = some p ↔ past ≠ [] ∧ ¬ g.Sideways b past) ∧
      (past = [] → ¬ ReflTransGen s.Goes b p) := by
  have hof : g.Of s := of_ofSub hg
  rw [hkey.context] at hp
  cases hway with
  | entry he =>
    cases he.symm.trans hof.entry
    exact ⟨by simp, fun _ => predFor_of_entry hg hd hp⟩
  | step _ hgoes =>
    have hedge := predFor_of_edge (searched_ofSub hg) (hof.succ_of_goes hgoes) hp
    rw [List.head?_cons, Option.some.injEq, hedge]
    exact ⟨by simp, nofun⟩

end Flow.Graph

end Precond
