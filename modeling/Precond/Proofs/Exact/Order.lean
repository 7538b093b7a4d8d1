import Precond.Proofs.Compare.Canonical
import Precond.Proofs.Exact.Relational

/-! The order of comparators does not matter, as long as the variables that they name have constants
when the first of them is asked (`Compare.subs_perm`). -/

namespace Precond

open IR Walk

/-- The constraints have formulas in the same cases, and these are true in the same models. -/
structure Constr.Equivalent (c d : Constr) : Prop where
  formula : (∃ F, c.toFormula = .ok F) ↔ ∃ G, d.toFormula = .ok G
  holds {F G : Term .bool} : c.toFormula = .ok F → d.toFormula = .ok G → ∀ m, F.holds m = G.holds m

/-- Among numbered nodes, constraints that echo each other are equivalent. -/
theorem Constr.Echoes.equivalent {c d : Constr} (h : c.Echoes d) (hc : c.toFormula = c.plain)
    (hd : d.toFormula = d.plain) : c.Equivalent d where
  formula := by
    rw [hc, hd]
    exact h.formal
  holds {F G} hF hG m := by
    rw [hc] at hF
    rw [hd] at hG
    rw [← truth_of_plain hF, ← truth_of_plain hG, h.truth ⟨F, hF⟩]

theorem Constr.Equivalent.refl (c : Constr) : c.Equivalent c where
  formula := Iff.rfl
  holds {F G} hF hG m := by
    cases hF.symm.trans hG
    rfl

theorem Env.Gives.constant {e e' : Env} (h : e.Gives e') (he : e.Constant) : e'.Constant where
  vars hv := by
    rcases h.vars hv with hv | ⟨n, s, ht, -, -⟩
    · exact he.vars hv
    · exact ⟨n, s, ht⟩
  called hf := by
    rcases h.called hf with hf | ⟨n, hp, -⟩
    · exact he.called hf
    · exact ⟨n, hp⟩

theorem Walk.mapM_length {α β : Type} {f : α → Walk β} {xs : List α} {ys : List β} {w w' : World}
    (h : xs.mapM f w = .ok ys w') : ys.length = xs.length := by
  induction xs generalizing w ys with
  | nil =>
    cases h
    rfl
  | cons x xs ih =>
    rw [List.mapM_cons] at h
    obtain ⟨y, w₁, -, h⟩ := bind_ok h
    obtain ⟨ys', w₂, hys, h⟩ := bind_ok h
    cases h
    rw [List.length_cons, List.length_cons, ih hys]

namespace Compare

variable {K : Constr → Prop} {w w' : World} {orig mod : Sub} {cmps cmps' : List Comparator}
  {c : Constr}

/-- A variable that has a constant in both programs as soon as the values at entry are noted. -/
structure Noted (w : World) (orig mod : Sub) (x : Var) : Prop where
  orig : x ∈ varsOf (w.env .orig) orig ∨ (w.env .orig).vars.lookup x ≠ none
  mod : x ∈ varsOf (w.env .mod) mod ∨ (w.env .mod).vars.lookup x ≠ none

/-- Preconditions are kept only for constraints that have been built. -/
def Settled (w : World) : Prop :=
  ∀ side t n, (w.env side).frame.root = some (t, n) → n < w.nodes

/-- The walks of a comparison, for another postcondition that echoes the one of the comparison. Both are
new constraints. -/
theorem walks_echo {post post' preMod pre : Constr} {w₁ w₂ : World} {low : Nat}
    (hK : Constr.Register K w.nodes) (hconst : w.Constant) (hpost : K post) (he : post.Echoes post')
    (hw : low ≤ w.nodes) (hlow : low ≤ post.id) (hlow' : low ≤ post'.id)
    (hroot : ∀ side t n, (w.env side).frame.root = some (t, n) → n < low)
    (hm : visitSub .mod post mod w = .ok preMod w₁) (ho : visitSub .orig preMod orig w₁ = .ok pre w₂) :
    ∃ preMod' v₁ pre' v₂ K₂, visitSub .mod post' mod w = .ok preMod' v₁ ∧
      visitSub .orig preMod' orig v₁ = .ok pre' v₂ ∧ (∀ c, K c → K₂ c) ∧
      Constr.Register K₂ w₂.nodes ∧ K₂ pre ∧ pre.Echoes pre' := by
  have hnew {side : Side} {c : Constr} (hc : low ≤ c.id) (t : String) :
      (w.env side).frame.root ≠ some (t, c.id) := fun hr => absurd (hroot side t _ hr) (by omega)
  have hl : Level K w w := ⟨.refl w, fun _ => rfl, fun _ => rfl, hK, hconst⟩
  obtain ⟨preMod', v₁, K₁, hm', hgrows, hl₁, hk₁, he₁⟩ :=
    visitSub_echoes hl hpost he (hnew hlow _) (hnew hlow' _) hm
  -- the second walk leaves the place in the first program as it is, and its precondition is new
  have hstays {c d : Constr} {u : World} (h : visitSub .mod c mod w = .ok d u) :
      (u.env .orig).frame = (w.env .orig).frame := by
    have hf := (((visitSub_kept (S := .any fun side => (w.env side).policy) True.intro).of_ok
      ⟨fun _ => rfl, fun _ => True.intro⟩ h).env .orig).frame
    have hne : Side.orig ≠ Side.mod := nofun
    rw [at_of_ne hne] at hf
    exact hf.symm
  have hrises := visitSub_rises hw hlow (hnew hlow _) hm
  have hrises' := visitSub_rises hw hlow' (hnew hlow' _) hm'
  obtain ⟨pre', v₂, K₂, ho', hgrows₂, hl₂, hk₂, he₂⟩ := visitSub_echoes hl₁ hk₁ he₁
    (by rw [hstays hm]; exact hnew hrises _) (by rw [hstays hm']; exact hnew hrises' _) ho
  exact ⟨preMod', v₁, pre', v₂, K₂, hm', ho', fun c hc => hgrows₂ c (hgrows c hc), hl₂.register, hk₂,
    he₂⟩

namespace Opening

/-- A comparison that gets to its walks, and whose walks succeed. -/
theorem subs_ok (o : Opening cmps orig mod w) {preMod pre : Constr} {w₁ w₂ : World}
    (hm : visitSub .mod o.post mod o.start = .ok preMod w₁)
    (ho : visitSub .orig preMod orig w₁ = .ok pre w₂) : subs cmps orig mod w =
      .ok (.clause w₂.nodes [o.entry] [pre]) { w₂ with nodes := w₂.nodes + 1 } := by
  refine (bind_of_ok rfl).trans ((bind_of_ok o.first_ok).trans ((bind_of_ok rfl).trans ?_))
  refine (bind_of_ok o.second_ok).trans ((bind_of_ok o.posts_ok).trans ?_)
  have hrest : (do
      let hyps ← cmps.mapM fun cmp => cmp.hyp orig mod
      let hyp ← conjoin (hyps ++ o.first ++ o.second)
      let preMod ← visitSub .mod o.post mod
      let pre ← visitSub .orig preMod orig
      mkClause [hyp] [pre] : Walk Constr) o.w₄ =
        .ok (.clause w₂.nodes [o.entry] [pre]) { w₂ with nodes := w₂.nodes + 1 } := by
    refine (bind_of_ok o.hyps_ok).trans ((bind_of_ok o.entry_ok).trans ((bind_of_ok hm).trans ?_))
    exact (bind_of_ok ho).trans rfl
  have hpost := o.post_ok
  revert hpost
  cases o.posts with
  | nil => exact fun hpost => (bind_of_ok hpost).trans hrest
  | cons => exact fun hpost => (bind_of_ok hpost).trans hrest

/-- Variables that are noted have constants when the comparators are asked. -/
theorem knows (o : Opening cmps orig mod w) :
    o.w₂.Registered orig mod ∧ (o.w₂.env .orig).arch = (w.env .orig).arch ∧
      ∀ x, Noted w orig mod x → o.w₂.Knows x := by
  obtain ⟨hfirst, -⟩ := snapshot_ok o.first_ok
  obtain ⟨hsecond, -⟩ := snapshot_ok o.second_ok
  have hmod₁ : o.w₁.env .mod = w.env .mod := hfirst.other nofun
  have horig₂ : o.w₂.env .orig = o.w₁.env .orig := hsecond.other nofun
  have horig {x : Var} (hx : x ∈ varsOf (w.env .orig) orig ∨ (w.env .orig).vars.lookup x ≠ none) :
      ∃ t, (o.w₂.env .orig).vars.lookup x = some t :=
    Option.ne_none_iff_exists'.mp (horig₂ ▸ hfirst.bound.mpr hx)
  have hmod {x : Var} (hx : x ∈ varsOf (w.env .mod) mod ∨ (w.env .mod).vars.lookup x ≠ none) :
      ∃ t, (o.w₂.env .mod).vars.lookup x = some t :=
    Option.ne_none_iff_exists'.mp (hsecond.bound.mpr (hmod₁.symm ▸ hx))
  obtain ⟨n, vs, is, he⟩ := hfirst.env
  obtain ⟨n', vs', is', he'⟩ := hsecond.env
  refine ⟨⟨fun hx => ?_, fun hx => ?_⟩, by rw [horig₂, he], fun x hx side => ?_⟩
  · rw [horig₂, he] at hx
    exact horig (.inl hx)
  · rw [he', hmod₁] at hx
    exact hmod (.inl hx)
  · cases side with
    | orig => exact horig hx.orig
    | mod => exact hmod hx.mod

/-- In another order comparators are asked for the same, and the walks start where they did. -/
theorem perm (o : Opening cmps orig mod w) (hp : cmps.Perm cmps')
    (hc : ∀ cmp ∈ cmps, cmp.Canonical K (w.env .orig).arch (Noted w orig mod)) :
    ∃ o' : Opening cmps' orig mod w, o'.start = o.start ∧ o.post.Echoes o'.post ∧
      o.entry.Echoes o'.entry := by
  obtain ⟨hregistered, harch, hknows⟩ := o.knows
  have hc' : ∀ cmp ∈ cmps, cmp.Canonical K (o.w₂.env .orig).arch o.w₂.Knows := fun cmp hcmp =>
    (hc cmp hcmp).imp_right fun h => harch ▸ h.mono hknows
  obtain ⟨W, hposts, hhyps⟩ := asked_perm hp hregistered hc'
  obtain ⟨posts, n, hn, hposts', hp₁⟩ := hposts.again (n := o.w₂.nodes) o.posts_ok
  have hpost : Along W W W W Constr.Echoes (if o.posts = [] then Walk.trivial else conjoin o.posts)
      (if posts = [] then Walk.trivial else conjoin posts) := by
    have hnil : posts = [] ↔ o.posts = [] := by
      rw [← List.length_eq_zero_iff, ← List.length_eq_zero_iff, hp₁.length]
    by_cases h : o.posts = []
    · rw [if_pos h, if_pos (hnil.mpr h)]
      exact .mkGoal ..
    · rw [if_neg h, if_neg fun h' => h (hnil.mp h')]
      exact .conjoin hp₁
  obtain ⟨post, n', hn', hpost', hp₂⟩ := hpost.again (hn ▸ o.post_ok)
  obtain ⟨hyps, n'', hn'', hhyps', hp₃⟩ := hhyps.again (hn' ▸ o.hyps_ok)
  have hentry : Along W W W W Constr.Echoes (conjoin (o.hyps ++ o.first ++ o.second))
      (conjoin (hyps ++ o.first ++ o.second)) := .conjoin ((hp₃.append (.refl _)).append (.refl _))
  obtain ⟨entry, k, -, hentry', hp₄⟩ := hentry.again (hn'' ▸ o.entry_ok)
  rw [← hn] at hpost'
  rw [← hn'] at hhyps'
  rw [← hn''] at hentry'
  exact ⟨⟨o.first_ok, o.second_ok, hposts', hpost', hhyps', hentry'⟩, rfl, hp₂, hp₄⟩

/-- The postcondition of a comparison by two comparators or more, or by none, is a new constraint. -/
theorem new (o : Opening cmps orig mod w) (hc : ∀ cmp ∈ cmps, cmp.Reads K) (hn : cmps.length ≠ 1) :
    w.nodes ≤ o.post.id := by
  have hnodes : w.nodes ≤ o.w₃.nodes := by
    obtain ⟨K₁, hb₁, -⟩ := (builds_snapshot K .orig _).ok (fun _ hc => hc) o.first_ok
    obtain ⟨K₂, hb₂, -⟩ := (builds_snapshot K .mod _).ok (fun _ hc => hb₁.grows hc) o.second_ok
    obtain ⟨K₃, hb₃, -⟩ := (Builds.nodes fun cmp hcmp => (hc cmp hcmp).post.builds orig mod).ok
      (fun _ hc => hb₂.grows (hb₁.grows hc)) o.posts_ok
    exact ((hb₁.trans hb₂).trans hb₃).nodes
  have hlength := mapM_length o.posts_ok
  have hpost := o.post_ok
  suffices hid : o.post.id = o.w₃.nodes from hid ▸ hnodes
  generalize o.posts = posts at hpost hlength
  split at hpost
  · rw [(mkGoal_ok hpost).1]
    rfl
  · unfold conjoin at hpost
    split at hpost
    · exact absurd hlength.symm hn
    · rw [(mkClause_ok hpost).1]
      rfl

end Opening

/-- The constraint of a comparison, and what comparators in another order give. -/
theorem subs_echo (hp : cmps.Perm cmps') (hn : cmps.length ≠ 1)
    (hc : ∀ cmp ∈ cmps, cmp.Canonical K (w.env .orig).arch (Noted w orig mod))
    (hK : Constr.Register K w.nodes) (hconst : w.Constant) (hset : Settled w)
    (h : subs cmps orig mod w = .ok c w') :
    ∃ c' w'', subs cmps' orig mod w = .ok c' w'' ∧ c.Echoes c' ∧ c.toFormula = c.plain := by
  obtain ⟨o, preMod, w₁, pre, w₂, hm, ho, rfl, rfl⟩ := subs_opening h
  obtain ⟨o', hstart, hpost, hentry⟩ := o.perm hp hc
  have hc' : ∀ cmp ∈ cmps', cmp.Reads K := fun cmp hcmp => (hc cmp (hp.mem_iff.mpr hcmp)).reads
  obtain ⟨K₂, K₃, K', hb₂, hb₃, hb, -, hk, -, hke⟩ := o.built fun cmp hcmp => (hc cmp hcmp).reads
  have hbuilt := (hb₂.trans hb₃).trans hb
  have hnew := o.new (fun cmp hcmp => (hc cmp hcmp).reads) hn
  have hnew' := o'.new hc' (hp.length_eq ▸ hn)
  have hroot : ∀ side t n, (o.start.env side).frame.root = some (t, n) → n < w.nodes := by
    intro side t n hr
    rw [(hbuilt.stays side).frame] at hr
    exact hset side t n hr
  obtain ⟨preMod', v₁, pre', v₂, K₄, hm', ho', hgrows, hK₄, hk₄, hecho⟩ := walks_echo
    (hbuilt.register hK) (fun side => (hbuilt.later side).gives.constant (hconst side)) hk hpost hbuilt.nodes hnew hnew' hroot hm ho
  rw [← hstart] at hm'
  refine ⟨_, _, o'.subs_ok hm' ho', .clause hentry.all hecho.all, ?_⟩
  have hclause := hK₄.add (c := .clause w₂.nodes [o.entry] [pre]) rfl fun d hd => by
    rcases List.mem_cons.mp hd with rfl | hd
    · exact hgrows _ hke
    · exact List.mem_singleton.mp hd ▸ hk₄
  exact hclause.toNumbered.toFormula_eq (.inr rfl)

/-- The order of comparators does not matter. Whatever the comparators there are, if the variables that
they name have constants as soon as the values at entry are noted, then a comparison by them succeeds in
all orders or in none, and the constraints that it gives are equivalent. -/
theorem subs_perm (hp : cmps.Perm cmps')
    (hc : ∀ cmp ∈ cmps, cmp.Canonical K (w.env .orig).arch (Noted w orig mod))
    (hK : Constr.Register K w.nodes) (hconst : w.Constant) (hset : Settled w) :
    ((∃ c w', subs cmps orig mod w = .ok c w') ↔ ∃ c w', subs cmps' orig mod w = .ok c w') ∧
      ∀ c c' w' w'', subs cmps orig mod w = .ok c w' → subs cmps' orig mod w = .ok c' w'' →
        c.Equivalent c' := by
  by_cases hn : cmps.length = 1
  · -- a single comparator has one order
    obtain ⟨cmp, rfl⟩ := List.length_eq_one_iff.mp hn
    rw [List.singleton_perm.mp hp]
    refine ⟨Iff.rfl, fun c c' w' w'' h h' => ?_⟩
    cases h.symm.trans h'
    exact .refl c
  have hc' : ∀ cmp ∈ cmps', cmp.Canonical K (w.env .orig).arch (Noted w orig mod) :=
    fun cmp hcmp => hc cmp (hp.mem_iff.mpr hcmp)
  have hn' : cmps'.length ≠ 1 := hp.length_eq ▸ hn
  refine ⟨⟨fun h => ?_, fun h => ?_⟩, fun c c' w' w'' h h' => ?_⟩
  · obtain ⟨c, w', h⟩ := h
    obtain ⟨c', w'', h', -⟩ := subs_echo hp hn hc hK hconst hset h
    exact ⟨c', w'', h'⟩
  · obtain ⟨c, w', h⟩ := h
    obtain ⟨c', w'', h', -⟩ := subs_echo hp.symm hn' hc' hK hconst hset h
    exact ⟨c', w'', h'⟩
  · obtain ⟨d, v, hd, hecho, hplain⟩ := subs_echo hp hn hc hK hconst hset h
    obtain ⟨-, -, -, -, hplain'⟩ := subs_echo hp.symm hn' hc' hK hconst hset h'
    cases hd.symm.trans h'
    exact hecho.equivalent hplain hplain'

/-! ### Doublings, compared in two orders -/

/-- The register is equal, as a formula says it too, and the same functions are called. -/
def threefold : List Comparator := [equalReg, .formulas "(= R0_orig R0_mod)" "true", .calls]

theorem subs_perm_doubles :
    threefold.Perm threefold.reverse ∧
      ((∃ c w', subs threefold added shifted doubles = .ok c w') ↔
        ∃ c w', subs threefold.reverse added shifted doubles = .ok c w') ∧
      ∀ c c' w' w'', subs threefold added shifted doubles = .ok c w' →
        subs threefold.reverse added shifted doubles = .ok c' w'' → c.Equivalent c' := by
  have hperm : threefold.Perm threefold.reverse := (List.reverse_perm threefold).symm
  have hreg : Noted doubles added shifted reg := ⟨.inl (by decide), .inl (by decide)⟩
  have hcanonical : ∀ cmp ∈ threefold,
      cmp.Canonical (fun _ => False) (doubles.env .orig).arch (Noted doubles added shifted) := by
    have hregs : ∀ x ∈ [reg], Noted doubles added shifted x :=
      fun x hx => List.mem_singleton.mp hx ▸ hreg
    intro cmp hcmp
    rcases List.mem_cons.mp hcmp with rfl | hcmp
    · exact .inr (.registers hregs hregs)
    rcases List.mem_cons.mp hcmp with rfl | hcmp
    · exact .inr (.formulas ..)
    · exact .inl (List.mem_singleton.mp hcmp)
  have hconst : doubles.Constant := fun side => by cases side <;> exact ⟨nofun, nofun⟩
  have hset : Settled doubles := fun side t n hr => by cases side <;> cases hr
  exact ⟨hperm, subs_perm hperm hcanonical Constr.Ledger.empty.register hconst hset⟩

end Compare

end Precond
