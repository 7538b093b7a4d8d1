import Precond.Proofs.Compare.Comparators
import Precond.Proofs.Compare.Snapshot
import Precond.Proofs.Walk.Success
import Precond.Proofs.Walk.Entry

/-! What a comparison does before it walks the programs (`Compare.Opening`): the values at entry are
noted, and comparators are asked for what holds at the exits and at the entries. Only constraints are
built on the way. A comparison gets to its walks where the variables of both subroutines have types with
sorts (`Compare.subs_outcome`). -/

namespace Precond.Compare

open IR Walk

/-- A comparison up to the walks of the programs. -/
structure Opening (cmps : List Comparator) (orig mod : Sub) (w : World) where
  {first second posts hyps : List Constr}
  {post entry : Constr}
  {w₁ w₂ w₃ w₄ w₅ start : World}
  first_ok : snapshot .orig (varsOf (w.env .orig) orig) w = .ok first w₁
  second_ok : snapshot .mod (varsOf (w₁.env .mod) mod) w₁ = .ok second w₂
  posts_ok : cmps.mapM (fun cmp => cmp.post orig mod) w₂ = .ok posts w₃
  post_ok : (if posts = [] then Walk.trivial else conjoin posts) w₃ = .ok post w₄
  hyps_ok : cmps.mapM (fun cmp => cmp.hyp orig mod) w₄ = .ok hyps w₅
  entry_ok : conjoin (hyps ++ first ++ second) w₅ = .ok entry start

variable {K : Constr → Prop} {w w' : World} {c : Constr} {orig mod : Sub} {cmps : List Comparator}

/-- The second program is walked before the first one. -/
theorem subs_opening (h : subs cmps orig mod w = .ok c w') :
    ∃ (o : Opening cmps orig mod w) (preMod : Constr) (w₁ : World) (pre : Constr) (w₂ : World),
      visitSub .mod o.post mod o.start = .ok preMod w₁ ∧ visitSub .orig preMod orig w₁ = .ok pre w₂ ∧
        c = .clause w₂.nodes [o.entry] [pre] ∧ w' = { w₂ with nodes := w₂.nodes + 1 } := by
  obtain ⟨e, u₀, he, h₀⟩ := bind_ok h
  obtain ⟨rfl, rfl⟩ := env_ok he
  obtain ⟨first, u₁, hfirst, h₁⟩ := bind_ok h₀
  obtain ⟨e, u₂, he, h₂⟩ := bind_ok h₁
  obtain ⟨rfl, rfl⟩ := env_ok he
  obtain ⟨second, u₃, hsecond, h₃⟩ := bind_ok h₂
  obtain ⟨posts, u₄, hposts, h₄⟩ := bind_ok h₃
  obtain ⟨post, u₅, hpost, h₅⟩ :
      ∃ post u₅, (if posts = [] then Walk.trivial else conjoin posts) u₄ = .ok post u₅ ∧ (do
        let hyps ← cmps.mapM fun cmp : Comparator => cmp.hyp orig mod
        let hyp ← conjoin (hyps ++ first ++ second)
        let preMod ← visitSub .mod post mod
        let pre ← visitSub .orig preMod orig
        mkClause [hyp] [pre]) u₅ = .ok c w' := by
    cases posts with
    | nil => exact bind_ok h₄
    | cons => exact bind_ok h₄
  obtain ⟨hyps, u₆, hhyps, h₆⟩ := bind_ok h₅
  obtain ⟨entry, u₇, hentry, h₇⟩ := bind_ok h₆
  obtain ⟨preMod, u₈, hmod, h₈⟩ := bind_ok h₇
  obtain ⟨pre, u₉, horig, h₉⟩ := bind_ok h₈
  obtain ⟨hc, hw'⟩ := mkClause_ok h₉
  exact ⟨⟨hfirst, hsecond, hposts, hpost, hhyps, hentry⟩, preMod, u₈, pre, u₉, hmod, horig, hc, hw'⟩

namespace Opening

/-- Whatever the comparators are, the environments are later ones, and what is built is numbered. -/
theorem built (o : Opening cmps orig mod w) (hcmps : ∀ cmp ∈ cmps, cmp.Reads K) :
    ∃ K₂ K₃ K', Built K K₂ w o.w₂ ∧ Built K₂ K₃ o.w₂ o.w₄ ∧ Built K₃ K' o.w₄ o.start ∧
      (∀ d ∈ o.posts, K₃ d) ∧ K' o.post ∧ (∀ d ∈ o.hyps ++ o.first ++ o.second, K' d) ∧
      K' o.entry := by
  obtain ⟨K₁, hb₁, hk₁⟩ := (builds_snapshot K .orig _).ok (fun _ => id) o.first_ok
  obtain ⟨K₂, hb₂, hk₂⟩ := (builds_snapshot K .mod _).ok (fun _ hc => hb₁.grows hc) o.second_ok
  obtain ⟨K₃, hb₃, hk₃⟩ := (Builds.nodes fun cmp hcmp => (hcmps cmp hcmp).post.builds orig mod).ok
    (fun _ hc => hb₂.grows (hb₁.grows hc)) o.posts_ok
  have hpost : Builds K₃ (if o.posts = [] then Walk.trivial else conjoin o.posts) fun c => [c] := by
    split
    · exact .trivial
    · exact .conjoin hk₃
  obtain ⟨K₄, hb₄, hk₄⟩ := hpost.ok (fun _ => id) o.post_ok
  obtain ⟨K₅, hb₅, hk₅⟩ := (Builds.nodes fun cmp hcmp => (hcmps cmp hcmp).hyp.builds orig mod).ok
    (fun _ hc => hb₄.grows (hb₃.grows (hb₂.grows (hb₁.grows hc)))) o.hyps_ok
  have hgrows {d : Constr} (hd : K₂ d) : K₅ d := hb₅.grows (hb₄.grows (hb₃.grows hd))
  have hall : ∀ d ∈ o.hyps ++ o.first ++ o.second, K₅ d := by
    intro d hd
    rcases List.mem_append.mp hd with hd | hd
    · rcases List.mem_append.mp hd with hd | hd
      · exact hk₅ d hd
      · exact hgrows (hb₂.grows (hk₁ d hd))
    · exact hgrows (hk₂ d hd)
  obtain ⟨K₆, hb₆, hk₆⟩ := (Builds.conjoin hall).ok (fun _ => id) o.entry_ok
  refine ⟨K₂, K₄, K₆, hb₁.trans hb₂, hb₃.trans hb₄, hb₅.trans hb₆, fun d hd => hb₄.grows (hk₃ d hd),
    hb₆.grows (hb₅.grows (hk₄ _ (List.mem_singleton_self _))), fun d hd => hb₆.grows (hall d hd),
    hk₆ _ (List.mem_singleton_self _)⟩

end Opening

end Precond.Compare

/-! ### What comparators ask for can be built -/

namespace Precond

open IR Walk

variable {a : Side → Arch} {w : World} {F : Fault → Prop} {orig mod : Sub} {cmps : List Comparator}
  {vars : List Var}

namespace Walk.Outcome

theorem of_succeeds {act : Walk α} {P : α → World → Prop} (h : Succeeds act w P) :
    Walk.Outcome P F act w := by
  obtain ⟨b, w', hb, hP⟩ := h
  rw [Walk.Outcome, hb]
  exact hP

theorem equalVars (hw : Sound a w) (hv : ∀ v ∈ vars, Sortable F v) (label : String) :
    Walk.Outcome (fun _ w' => Sound a w') F (PairRel.equalVars vars label) w := by
  refine .bind (.mapM hw fun v hm w hw => ?_) fun goals w₁ h₁ => .mkClause h₁ _ _
  have hv' := hv v (List.mem_mergeSort.mp hm)
  refine .bind (.mkVar hw hv') fun x w₁ ⟨hx, h₁⟩ => .bind (.mkVar h₁ hv') fun y w₂ ⟨hy, h₂⟩ => ?_
  exact .equate h₂ _ (Except.ok.inj (hy.symm.trans hx))

theorem equalInputs (hw : Sound a w) (hv : ∀ v ∈ varsOf (w.env .orig) orig, Sortable F v) :
    Walk.Outcome (fun _ w' => Sound a w') F (PairRel.equalInputs orig mod) w := by
  refine .bind (P := fun vs w' => w' = w ∧ vs ⊆ varsOf (w.env .orig) orig) ?_ ?_
  · exact ⟨rfl, List.filter_subset_self _⟩
  · rintro vs _ ⟨rfl, hvs⟩
    exact .equalVars hw (fun v hm => hv v (hvs hm)) _

end Walk.Outcome

namespace Compare

/-- What a comparator asks for can be built, or there is a fault of which `F` holds. -/
structure Poses (a : Side → Arch) (F : Fault → Prop) (orig mod : Sub) (cmp : Comparator) : Prop where
  post {w : World} : Sound a w → Walk.Outcome (fun _ w' => Sound a w') F (cmp.post orig mod) w
  hyp {w : World} : Sound a w → Walk.Outcome (fun _ w' => Sound a w') F (cmp.hyp orig mod) w

namespace Poses

theorem any (hw : Sound a w) : Walk.Outcome (fun _ w' => Sound a w') F Walk.trivial w := .mkGoal hw ..

theorem stackPointers (h : ∀ side, ∃ n, (a side).sp.type.sort = .ok (.bv n)) :
    Poses a F orig mod .stackPointers where
  post := any
  hyp hw := by
    refine .bind (.spRange hw (h .orig)) fun p w₁ h₁ => .bind (.mkGoal h₁ ..) fun c w₂ h₂ => ?_
    exact .bind (.spRange h₂ (h .mod)) fun q w₃ h₃ => .bind (.mkGoal h₃ ..) fun d w₄ h₄ =>
      .mkClause h₄ ..

theorem memories (h : Sortable F (a .orig).mem) : Poses a F orig mod .memories where
  post := any
  hyp hw := by
    refine .bind (P := fun e w' => w' = _ ∧ e.arch = a .orig) (.env ⟨rfl, hw.arch .orig⟩) ?_
    rintro e _ ⟨rfl, he⟩
    rw [he]
    exact .equalVars hw (fun v hv => List.mem_singleton.mp hv ▸ h) _

theorem emptyPost (h : ∀ v ∈ (orig.vars ++ (a .orig).registers).eraseDups, Sortable F v) :
    Poses a F orig mod .emptyPost where
  post := any
  hyp hw := .equalInputs hw (by rw [varsOf, hw.arch]; exact h)

end Poses

/-- A comparison ends as the walks do that it opens with. -/
theorem subs_outcome {Q : Constr → World → Prop} (hw : Sound a w)
    (hc : ∀ cmp ∈ cmps, Poses a F orig mod cmp)
    (horig : ∀ v ∈ (orig.vars ++ (a .orig).registers).eraseDups, Sortable F v)
    (hmod : ∀ v ∈ (mod.vars ++ (a .mod).registers).eraseDups, Sortable F v)
    (hwalk : ∀ op : Opening cmps orig mod w, Sound a op.start → Walk.Outcome Q F (do
      let preMod ← visitSub .mod op.post mod
      let pre ← visitSub .orig preMod orig
      mkClause [op.entry] [pre]) op.start) : Walk.Outcome Q F (subs cmps orig mod) w := by
  have hvars (side : Side) {s : Sub} {w : World} (h : Sound a w)
      (hs : ∀ v ∈ (s.vars ++ (a side).registers).eraseDups, Sortable F v) :
      ∀ v ∈ varsOf (w.env side) s, Sortable F v := by
    rw [varsOf, h.arch]
    exact hs
  refine .bind (P := fun e w' => w' = w ∧ e = w.env .orig) (.env ⟨rfl, rfl⟩) ?_
  rintro _ _ ⟨rfl, rfl⟩
  refine .bind (Walk.Outcome.snapshot hw (hvars .orig hw horig)).seen fun first w₁ ⟨hfirst, h₁⟩ => ?_
  refine .bind (P := fun e w' => w' = w₁ ∧ e = w₁.env .mod) (.env ⟨rfl, rfl⟩) ?_
  rintro _ _ ⟨rfl, rfl⟩
  refine .bind (Walk.Outcome.snapshot h₁ (hvars .mod h₁ hmod)).seen fun second w₂ ⟨hsecond, h₂⟩ => ?_
  have hmapM {w : World} (hw : Sound a w) {f : Comparator → Walk Constr}
      (h : ∀ cmp ∈ cmps, ∀ w, Sound a w → Walk.Outcome (fun _ w' => Sound a w') F (f cmp) w) :
      Walk.Outcome (fun cs w' => cmps.mapM f w = .ok cs w' ∧ Sound a w') F (cmps.mapM f) w :=
    (Walk.Outcome.mapM hw h).seen
  refine .bind (hmapM h₂ fun cmp hcmp _ => (hc cmp hcmp).post) fun posts w₃ ⟨hposts, h₃⟩ => ?_
  have hpost : Walk.Outcome (fun c w' => (if posts = [] then Walk.trivial else conjoin posts) w₃ = .ok c w' ∧
      Sound a w') F (if posts = [] then Walk.trivial else conjoin posts) w₃ := by
    refine Walk.Outcome.seen ?_
    split
    · exact .mkGoal h₃ ..
    · exact .conjoin h₃ _
  suffices hrest : ∀ post w₄, (if posts = [] then Walk.trivial else conjoin posts) w₃ = .ok post w₄ →
      Sound a w₄ → Walk.Outcome Q F (do
        let hyps ← cmps.mapM fun cmp => cmp.hyp orig mod
        let hyp ← conjoin (hyps ++ first ++ second)
        let preMod ← visitSub .mod post mod
        let pre ← visitSub .orig preMod orig
        mkClause [hyp] [pre]) w₄ by
    cases posts with
    | nil => exact .bind hpost fun post w₄ ⟨hpost, h₄⟩ => hrest post w₄ hpost h₄
    | cons => exact .bind hpost fun post w₄ ⟨hpost, h₄⟩ => hrest post w₄ hpost h₄
  intro post w₄ hpost h₄
  refine .bind (hmapM h₄ fun cmp hcmp _ => (hc cmp hcmp).hyp) fun hyps w₅ ⟨hhyps, h₅⟩ => ?_
  refine .bind (Walk.Outcome.conjoin h₅ _).seen fun entry start ⟨hentry, hstart⟩ => ?_
  exact hwalk ⟨hfirst, hsecond, hposts, hpost, hhyps, hentry⟩ hstart

end Compare

end Precond
