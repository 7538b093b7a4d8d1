import Mathlib.Data.Finset.Max
import Precond.Proofs.Flow.Search

/-! The cycles of a subroutine and its loops. The loop of a header holds the blocks that come to the
source of one of its back edges on a way without the header (`Graph.mem_loopOf_iff`). On a cycle the
block that the search leaves last is entered through a back edge, and all other blocks come to it
along the cycle, so that its loop holds the cycle (`Graph.loops_exact`), whether or not the loops of
the subroutine are nested. -/

namespace Precond.Flow

open IR Relation

namespace Route

variable {E : String → String → Prop} {a b c x : String} {way : List String}

theorem single (a : String) : Route E a a [a] := ⟨rfl, rfl, List.isChain_singleton a⟩

theorem cons (hE : E a b) (h : Route E b c way) : Route E a c (a :: way) := by
  obtain ⟨hhead, hlast, hedges⟩ := h
  cases way with
  | nil => cases hhead
  | cons y way =>
    cases hhead
    exact ⟨rfl, hlast, List.isChain_cons_cons.mpr ⟨hE, hedges⟩⟩

/-- A way from a block is over at once or goes on along an edge. -/
theorem uncons (h : Route E a c (x :: way)) :
    x = a ∧ (a = c ∧ way = [] ∨ ∃ b, E a b ∧ Route E b c way) := by
  obtain ⟨hhead, hlast, hedges⟩ := h
  cases hhead
  refine ⟨rfl, ?_⟩
  cases way with
  | nil => exact .inl ⟨Option.some.inj hlast, rfl⟩
  | cons b way =>
    rw [List.isChain_cons_cons] at hedges
    exact .inr ⟨b, hedges.1, rfl, hlast, hedges.2⟩

/-- Where one block comes to another, it is this block or comes to one before it without passing it. -/
theorem before_hit (h : ReflTransGen E a b) :
    a = b ∨ ∃ l way, E l b ∧ Route E a l way ∧ b ∉ way := by
  induction h using ReflTransGen.head_induction_on with
  | refl => exact .inl rfl
  | @head a c hac _ ih =>
    by_cases hab : a = b
    · exact .inl hab
    rcases ih with rfl | ⟨l, way, hl, hway, hnot⟩
    · refine .inr ⟨a, [a], hac, single a, ?_⟩
      simpa using Ne.symm hab
    · refine .inr ⟨l, a :: way, hl, hway.cons hac, ?_⟩
      simpa [hnot] using Ne.symm hab

/-- A way goes along pairs of blocks that are next to each other on it. -/
theorem steps (h : Route E a b way) : Route (fun x y => [x, y] <:+: way) a b way :=
  ⟨h.head, h.last, List.isChain_isInfix way⟩

end Route

/-! ### Loops -/

/-- What holds of the waiting blocks and of the predecessors of all blocks but the header holds of
what is gathered. -/
theorem gather_induct {P : String → Prop} {preds : String → List String} {header : String}
    (hstep : ∀ b, P b → b ≠ header → ∀ a ∈ preds b, P a) {fuel : Nat} {work body : List String}
    (hwork : ∀ x ∈ work, P x) (hbody : ∀ x ∈ body, P x) :
    ∀ x ∈ gather preds header fuel work body, P x := by
  induction fuel generalizing work body with
  | zero => exact hbody
  | succ fuel ih =>
    cases work with
    | nil => exact hbody
    | cons node work =>
      obtain ⟨hnode, hwork⟩ := List.forall_mem_cons.mp hwork
      rw [gather]
      split
      · exact ih hwork hbody
      · rename_i hne
        have hnew : ∀ x ∈ (preds node).eraseDups.filter (!body.contains ·), P x := by
          intro x hx
          exact hstep node hnode hne x (List.mem_eraseDups.mp (List.mem_filter.mp hx).1)
        apply ih
        · exact List.forall_mem_append.mpr ⟨hnew, hwork⟩
        · exact List.forall_mem_append.mpr ⟨hbody, hnew⟩

theorem route_of_mem_naturalLoop {preds : String → List String} {blocks : Nat} {latch header x : String}
    {E : String → String → Prop} (hpreds : ∀ a b, a ∈ preds b → E a b)
    (hx : x ∈ naturalLoop preds blocks latch header) :
    x = header ∨ ∃ way, Route E x latch way ∧ header ∉ way := by
  have hlatch : latch = header ∨ ∃ way, Route E latch latch way ∧ header ∉ way := by
    by_cases h : latch = header
    · exact .inl h
    · exact .inr ⟨[latch], Route.single latch, by simpa using Ne.symm h⟩
  refine gather_induct (P := fun x => x = header ∨ ∃ way, Route E x latch way ∧ header ∉ way)
    (fun b hb hne a ha => ?_) ?_ ?_ x hx
  · by_cases h : a = header
    · exact .inl h
    obtain ⟨way, hway, hnot⟩ := hb.resolve_left hne
    refine .inr ⟨a :: way, hway.cons (hpreds a b ha), ?_⟩
    simpa [hnot] using Ne.symm h
  · simpa using hlatch
  · simpa using hlatch

namespace Graph

variable {s : Sub} {g : Graph} {h l x : String} {way : List String}

/-- The blocks on a way to the source of a back edge are in its loop, if the header is not on the
way. -/
theorem Searched.mem_loopOf_of_route (hg : g.Searched) (hback : g.isBackEdge l h)
    (hway : Route (Edge g.succsOf) x l way) (hnot : h ∉ way) : x ∈ g.loopOf h := by
  induction way generalizing x with
  | nil => cases hway.head
  | cons y way ih =>
    obtain ⟨rfl, ⟨rfl, -⟩ | ⟨z, hz, hrest⟩⟩ := hway.uncons
    · exact hg.latch_mem hback
    · have hzl : z ∈ g.loopOf h := ih hrest fun hc => hnot (List.mem_cons_of_mem _ hc)
      have hne : z ≠ h := by
        rintro rfl
        exact hnot (List.mem_cons_of_mem _ (List.mem_of_head? hrest.head))
      exact hg.closed hzl hne hz

/-- The loop of a header holds the header and the blocks that come to the source of a back edge
without passing the header. -/
theorem mem_loopOf_iff (hg : ofSub s = .ok g) (hd : (s.blks.map Blk.tid).Nodup) :
    x ∈ g.loopOf h ↔ ∃ l, g.isBackEdge l h ∧
      (x = h ∨ ∃ way, Route (Edge g.succsOf) x l way ∧ h ∉ way) := by
  have hsearched := searched_ofSub hg
  constructor
  · intro hx
    obtain ⟨e, he, rfl, hx⟩ := hsearched.mem_loopOf.mp hx
    refine ⟨e.1, List.contains_iff_mem.mpr he, ?_⟩
    exact route_of_mem_naturalLoop (fun a b ha => succ_of_pred hg hd ha) hx
  · rintro ⟨l, hback, rfl | ⟨way, hway, hnot⟩⟩
    · exact hsearched.header_mem hback
    · exact hsearched.mem_loopOf_of_route hback hway hnot

/-! ### Cycles -/

/-- On a cycle something is next before each block. -/
theorem exists_before {E : String → String → Prop} {c : String} (hway : Route E c c way)
    (hlength : 2 ≤ way.length) (hh : h ∈ way) : ∃ l, [l, h] <:+: way := by
  obtain ⟨_, _, -, hto, -⟩ := hway.steps.split hh
  cases way with
  | nil => cases hh
  | cons y rest =>
    obtain ⟨rfl, ⟨-, rfl⟩ | ⟨b, hb, hrest⟩⟩ := hway.steps.uncons
    · simp at hlength
    · have hcycle : TransGen (fun x z => [x, z] <:+: y :: rest) y h :=
        .head' hb (hrest.reaches.trans hto.reaches)
      obtain ⟨l, -, hl⟩ := TransGen.tail'_iff.mp hcycle
      exact ⟨l, hl⟩

/-- Among the blocks of a cycle the one with the highest rank is a header that the cycle enters through
a back edge, and its loop holds the cycle. -/
theorem Searched.header_of_cycle (hg : g.Searched) {c : String}
    (hway : Route (Edge g.succsOf) c c way) (hlength : 2 ≤ way.length)
    (hc : Reachable g.succsOf g.entry c) :
    ∃ l h, [l, h] <:+: way ∧ g.isBackEdge l h ∧ ∀ x ∈ way, x ∈ g.loopOf h := by
  obtain ⟨rank, top, hrank⟩ := hg.ranked
  have hcmem : c ∈ way := List.mem_of_head? hway.head
  obtain ⟨h, hh, hmax⟩ := way.toFinset.exists_max_image rank ⟨c, List.mem_toFinset.mpr hcmem⟩
  rw [List.mem_toFinset] at hh
  have hedge {x y : String} (hxy : [x, y] <:+: way) : y ∈ g.succsOf x := by
    obtain ⟨before, after, rfl⟩ := hxy
    exact List.isChain_pair.mp hway.edges.left_of_append.right_of_append
  -- an edge of the cycle to the highest block is a back edge
  have hback {l : String} (hl : [l, h] <:+: way) : g.isBackEdge l h := by
    have hmem : l ∈ way := hl.subset List.mem_cons_self
    obtain ⟨_, _, -, hto, -⟩ := hway.split hmem
    refine ((hrank l (hc.trans hto.reaches)).2 h (hedge hl)).resolve_right ?_
    exact Nat.not_lt.mpr (hmax l (List.mem_toFinset.mpr hmem))
  obtain ⟨l, hl⟩ := exists_before hway hlength hh
  refine ⟨l, h, hl, hback hl, fun x hx => ?_⟩
  -- the others come to the highest block along the cycle
  obtain ⟨_, _, -, -, hfrom⟩ := hway.steps.split hx
  obtain ⟨_, _, -, hto, -⟩ := hway.steps.split hh
  rcases Route.before_hit (hfrom.reaches.trans hto.reaches) with rfl | ⟨l', way', hl', hway', hnot⟩
  · exact hg.header_mem (hback hl)
  · exact hg.mem_loopOf_of_route (hback hl') (hway'.mono hedge) hnot

/-- In the graph of a subroutine whose blocks have different names, the loop of a header holds the
header and the blocks that come to the source of one of its back edges without passing it; and every
cycle among the blocks that are reached enters a header through a back edge, in whose loop all blocks
of the cycle are. -/
theorem loops_exact (hg : ofSub s = .ok g) (hd : (s.blks.map Blk.tid).Nodup) :
    (∀ h x, x ∈ g.loopOf h ↔ ∃ l, g.isBackEdge l h ∧
      (x = h ∨ ∃ way, Route (Edge g.succsOf) x l way ∧ h ∉ way)) ∧
    ∀ c way, Route (Edge g.succsOf) c c way → 2 ≤ way.length →
      (∀ x ∈ way, Reachable g.succsOf g.entry x) →
      ∃ l h, [l, h] <:+: way ∧ g.isBackEdge l h ∧ ∀ x ∈ way, x ∈ g.loopOf h := by
  refine ⟨fun h x => mem_loopOf_iff hg hd, fun c way hway hlength hreach => ?_⟩
  apply (searched_ofSub hg).header_of_cycle hway hlength
  exact hreach c (List.mem_of_head? hway.head)

/-! Two headers that are entered from outside each, and whose loops overlap. -/

/-- A block that jumps to some blocks. -/
def junction (tid : String) (targets : List String) : Blk where
  tid
  phis := []
  defs := []
  jumps := targets.map fun t => ⟨.goto (.direct t), .always, tid ++ t⟩

def crossing : Sub where
  name := "crossing"
  tid := "@crossing"
  addr := none
  args := []
  blks := [junction "%entry" ["%left", "%right"], junction "%left" ["%a"], junction "%right" ["%b"],
    junction "%a" ["%b", "%latch"], junction "%b" ["%latch"], junction "%latch" ["%a", "%b"]]

/-- The graph of `crossing`. -/
def crossed : Graph where
  sub := crossing
  entry := "%entry"
  blocks := crossing.blks.map fun b => (b.tid, b)
  succs := [("%entry", ["%left", "%right"]), ("%left", ["%a"]), ("%right", ["%b"]),
    ("%a", ["%b", "%latch"]), ("%b", ["%latch"]), ("%latch", ["%a", "%b"])]
  preds := [("%entry", []), ("%left", ["%entry"]), ("%right", ["%entry"]),
    ("%a", ["%left", "%latch"]), ("%b", ["%right", "%a", "%latch"]), ("%latch", ["%a", "%b"])]
  fallthrough := crossing.blks.map fun b => (b.tid, none)
  backEdges := [("%latch", "%b"), ("%latch", "%a")]
  loops := [("%b", ["%b", "%latch", "%a", "%left", "%entry"]),
    ("%a", ["%a", "%latch", "%b", "%right", "%entry"])]

theorem ofSub_crossing : ofSub crossing = .ok crossed := by rfl

/-- Neither loop is in the other one, and a cycle through both headers is in the loop of one. -/
theorem loops_exact_crossing :
    ofSub crossing = .ok crossed ∧ (crossing.blks.map Blk.tid).Nodup ∧
      "%left" ∈ crossed.loopOf "%b" ∧ "%left" ∉ crossed.loopOf "%a" ∧
      "%right" ∈ crossed.loopOf "%a" ∧ "%right" ∉ crossed.loopOf "%b" ∧
      ∃ l h, [l, h] <:+: ["%a", "%b", "%latch", "%a"] ∧ crossed.isBackEdge l h ∧
        ∀ x ∈ ["%a", "%b", "%latch", "%a"], x ∈ crossed.loopOf h := by
  have hnodup : (crossing.blks.map Blk.tid).Nodup := by decide
  refine ⟨ofSub_crossing, hnodup, by decide, by decide, by decide, by decide, ?_⟩
  have ha : Reachable crossed.succsOf crossed.entry "%a" :=
    (ReflTransGen.single (b := "%left") (by decide)).tail (by decide)
  have hb : Reachable crossed.succsOf crossed.entry "%b" := ha.tail (by decide)
  have hlatch : Reachable crossed.succsOf crossed.entry "%latch" := ha.tail (by decide)
  apply (loops_exact ofSub_crossing hnodup).2 "%a" ["%a", "%b", "%latch", "%a"]
  · exact ⟨rfl, rfl, by decide⟩
  · decide
  · simp [ha, hb, hlatch]

end Graph

end Precond.Flow
