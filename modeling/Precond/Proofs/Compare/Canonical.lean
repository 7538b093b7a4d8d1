import Precond.Proofs.Compare.Order
import Precond.Proofs.Walk.Success

/-! The comparators there are (`Comparator.Canonical`). The one for calls asks for the flags of all callees
at once; all others leave the environments as they are. In another order they come to the same
(`Compare.posts_perm`, `Compare.hyps_perm`). -/

namespace Precond

open IR Walk

theorem IR.Arch.mem_registers {a : Arch} {x : Var} :
    x ∈ a.registers ↔ x ∈ a.gprs ∨ x ∈ a.flags ++ [a.sp, a.mem] := by
  have hfold (vs start : List Var) :
      x ∈ vs.foldl Arch.addNew start ↔ x ∈ start ∨ x ∈ vs := by
    induction vs generalizing start with
    | nil => simp
    | cons y ys ih =>
      rw [List.foldl_cons, ih, Arch.addNew]
      split <;> simp only [List.mem_append, List.mem_cons, List.not_mem_nil, or_false]
      · rename_i hy
        refine ⟨Or.imp_right .inr, ?_⟩
        rintro (h | rfl | h)
        · exact .inl h
        · exact .inl hy
        · exact .inr h
      · exact or_assoc
  exact hfold ..

/-- A variable that has a constant in both programs. -/
def World.Knows (w : World) (x : Var) : Prop :=
  ∀ side, ∃ t, (w.env side).vars.lookup x = some t

/-- The variables of two subroutines, and the registers, have constants. -/
structure World.Registered (w : World) (orig mod : Sub) : Prop where
  orig (h : x ∈ varsOf (w.env .orig) orig) : ∃ t, (w.env .orig).vars.lookup x = some t
  mod (h : x ∈ varsOf (w.env .mod) mod) : ∃ t, (w.env .mod).vars.lookup x = some t

variable {w v w₁ W : World} {orig mod : Sub} {K : Constr → Prop} {mem : Var} {side : Side}
  {cmp : Comparator} {cmps cmps' : List Comparator}

namespace World

theorem Knows.even {x : Var} (h : w.Knows x) (hf : w.Even v) : v.Knows x := by
  intro side
  obtain ⟨names, called, he⟩ := hf side
  rw [he]
  exact h side

theorem Registered.even (h : w.Registered orig mod) (hf : w.Even v) : v.Registered orig mod := by
  obtain ⟨n, c, he⟩ := hf .orig
  obtain ⟨n', c', he'⟩ := hf .mod
  refine ⟨fun hx => ?_, fun hx => ?_⟩
  · rw [he] at hx ⊢
    exact h.orig hx
  · rw [he'] at hx ⊢
    exact h.mod hx

theorem Registered.register (h : w.Registered orig mod) {x : Var}
    (hx : x ∈ (w.env side).arch.registers) : ∃ t, (w.env side).vars.lookup x = some t := by
  have hvars (s : Sub) : x ∈ varsOf (w.env side) s :=
    List.mem_eraseDups.mpr (List.mem_append_right _ hx)
  cases side with
  | orig => exact h.orig (hvars _)
  | mod => exact h.mod (hvars _)

end World

/-- The comparators there are, but for the one for calls. The variables that they name have constants,
and the constraints that they are given are among `K`. -/
inductive Comparator.Plain (K : Constr → Prop) (arch : Arch) (knows : Var → Prop) : Comparator → Prop
  | empty : Plain K arch knows .empty
  | emptyPost : Plain K arch knows .emptyPost
  | registers {xs ys : List Var} : (∀ x ∈ xs, knows x) → (∀ x ∈ ys, knows x) →
    Plain K arch knows (.registers xs ys)
  | stackPointers : Plain K arch knows .stackPointers
  | given {c d : Constr} : K c → K d → Plain K arch knows (.given c d)
  | formulas (post hyp : String) : Plain K arch knows (.formulas post hyp)
  | memories : knows arch.mem → Plain K arch knows .memories
  | pointers (names : List String) : Plain K arch knows (.pointers names)

/-- The comparators there are. -/
def Comparator.Canonical (K : Constr → Prop) (arch : Arch) (knows : Var → Prop) (cmp : Comparator) :
    Prop := cmp = .calls ∨ cmp.Plain K arch knows

theorem Comparator.Plain.mono {arch : Arch} {knows knows' : Var → Prop} (h : cmp.Plain K arch knows)
    (hk : ∀ x, knows x → knows' x) : cmp.Plain K arch knows' := by
  cases h with
  | empty => exact .empty
  | emptyPost => exact .emptyPost
  | registers hpre hpost => exact .registers (fun x hx => hk x (hpre x hx)) fun x hx => hk x (hpost x hx)
  | stackPointers => exact .stackPointers
  | given hc hd => exact .given hc hd
  | formulas => exact .formulas ..
  | memories hmem => exact .memories (hk _ hmem)
  | pointers => exact .pointers _

theorem Comparator.Canonical.reads {arch : Arch} {knows : Var → Prop} (h : cmp.Canonical K arch knows) : cmp.Reads K := by
  obtain rfl | h := h
  · exact reads_calls
  cases h with
  | empty => exact reads_empty
  | emptyPost => exact ⟨PairRel.reads_any, PairRel.reads_equalInputs⟩
  | registers => exact reads_registers ..
  | stackPointers => exact reads_stackPointers
  | given hpre hpost => exact reads_given hpre hpost
  | formulas => exact reads_formulas ..
  | memories => exact reads_memories
  | pointers => exact reads_pointers _

/-! ### Comparators that leave the environments as they are -/

namespace Walk.Along

theorem equalVars {vars : List Var} (hf : w.Even v) (h : ∀ x ∈ vars, w.Knows x) (label : String) :
    Along w w v v Constr.Echoes (PairRel.equalVars vars label) (PairRel.equalVars vars label) := by
  refine clause fun x hx => ?_
  have hx' := h x (List.mem_mergeSort.mp hx)
  obtain ⟨t, ht⟩ := hx' .orig
  obtain ⟨t', ht'⟩ := hx' .mod
  refine (mkVar hf ht).bind fun s s' hs => (mkVar hf ht').bind fun r r' hr => ?_
  subst hs hr
  exact equate ..

theorem equalInputs (hf : w.Even v) (h : w.Registered orig mod) :
    Along w w v v Constr.Echoes (PairRel.equalInputs orig mod) (PairRel.equalInputs orig mod) := by
  have hshared : Along w w v v (fun xs ys => ys = xs ∧ ∀ x ∈ xs, w.Knows x)
      (PairRel.sharedVars orig mod) (PairRel.sharedVars orig mod) := by
    refine env hf (fun _ _ _ => rfl) (env hf (fun _ _ _ => rfl) (pure ⟨rfl, fun x hx side => ?_⟩))
    obtain ⟨hx, hx'⟩ := List.mem_filter.mp hx
    cases side with
    | orig => exact h.orig hx
    | mod => exact h.mod (List.contains_iff_mem.mp hx')
  refine hshared.bind fun xs ys ⟨hxs, hknown⟩ => ?_
  subst hxs
  exact equalVars hf hknown _

theorem formulaForBoth (hf : w.Even v) (text : String) :
    Along w w v v Constr.Echoes (Walk.formulaForBoth text) (Walk.formulaForBoth text) :=
  env hf (fun _ _ _ => rfl) (env hf (fun _ _ _ => rfl) (formula ..))

theorem stackPointers (hf : w.Even v) (h : w.Registered orig mod) :
    Along w w v v Constr.Echoes (Comparator.stackPointers.hyp orig mod)
      (Comparator.stackPointers.hyp orig mod) := by
  have hsp (side : Side) : ∃ t, (w.env side).vars.lookup (w.env side).arch.sp = some t :=
    h.register (Arch.mem_registers.mpr (.inr (by simp)))
  obtain ⟨t, ht⟩ := hsp .orig
  obtain ⟨t', ht'⟩ := hsp .mod
  refine (spRange hf ht).bind fun p p' hp => ?_
  subst hp
  refine (mkGoal ..).bind fun c c' hc => (spRange hf ht').bind fun q q' hq => ?_
  subst hq
  exact (mkGoal ..).bind fun d d' hd => mkClause (.refl []) (.of_forall₂ (.cons hc (.cons hd .nil)))

/-- A register is looked up, and is known. -/
theorem register (hf : w.Even v) (h : w.Registered orig mod) (side : Side) (name : String) :
    Along w w v v (fun x y => y = x ∧ ∃ t, (w.env side).vars.lookup x = some t)
      (Walk.register side name) (Walk.register side name) := by
  refine env hf (fun _ _ _ => rfl) ?_
  dsimp only
  cases hr : (w.env side).arch.reg? name with
  | none => exact throw _
  | some x => exact pure ⟨rfl, h.register (List.mem_of_find?_eq_some hr)⟩

theorem pointerGoal (hf : w.Even v) {x : Var} (h : ∃ t, (w.env side).vars.lookup x = some t) :
    Along w w v v Constr.Echoes (Walk.pointerGoal side x) (Walk.pointerGoal side x) := by
  obtain ⟨t, ht⟩ := h
  refine (mkVar hf ht).bind fun s s' hs => ?_
  subst hs
  refine (ofExcept _).bind fun a a' ha => ?_
  subst ha
  exact env hf (fun _ _ _ => rfl) (mkGoal ..)

theorem pointersBoth (hf : w.Even v) (h : w.Registered orig mod) (names : List String) :
    Along w w v v Constr.Echoes (Walk.pointersBoth names) (Walk.pointersBoth names) := by
  have hgoals {side : Side} {xs ys : List Var}
      (hxs : List.Forall₂ (fun x y => y = x ∧ ∃ t, (w.env side).vars.lookup x = some t) xs ys) :
      Along w w v v (List.Forall₂ Constr.Echoes) (xs.mapM (Walk.pointerGoal side))
        (ys.mapM (Walk.pointerGoal side)) := by
    induction hxs with
    | nil => exact pure .nil
    | cons hx _ ih =>
      obtain ⟨rfl, hx⟩ := hx
      rw [List.mapM_cons, List.mapM_cons]
      exact (pointerGoal hf hx).bind fun c d hcd => ih.bind fun cs ds hcs => pure (.cons hcd hcs)
  refine (mapM fun name _ => register hf h .orig name).bind fun xs ys hxs => ?_
  refine (mapM fun name _ => register hf h .mod name).bind fun xs' ys' hxs' => ?_
  refine (hgoals hxs).bind fun cs cs' hcs => (hgoals hxs').bind fun ds ds' hds => ?_
  exact mkClause (.refl []) ((Constr.EchoAll.of_forall₂ hcs).append (.of_forall₂ hds))

theorem plain_post (hf : w.Even v) (h : cmp.Plain K (w.env .orig).arch w.Knows) :
    Along w w v v Constr.Echoes (cmp.post orig mod) (cmp.post orig mod) := by
  cases h with
  | registers _ hpost => exact equalVars hf hpost _
  | given => exact pure (.refl _)
  | formulas => exact formulaForBoth hf _
  | _ => exact mkGoal ..

theorem plain_hyp (hf : w.Even v) (hw : w.Registered orig mod) (h : cmp.Plain K (w.env .orig).arch w.Knows) :
    Along w w v v Constr.Echoes (cmp.hyp orig mod) (cmp.hyp orig mod) := by
  cases h with
  | empty => exact mkGoal ..
  | emptyPost => exact equalInputs hf hw
  | registers hpre _ => exact equalVars hf hpre _
  | stackPointers => exact stackPointers hf hw
  | given => exact pure (.refl _)
  | formulas => exact formulaForBoth hf _
  | memories hmem =>
    refine env hf (fun _ _ _ => rfl) (equalVars hf (fun x hx => ?_) _)
    exact List.mem_singleton.mp hx ▸ hmem
  | pointers names => exact pointersBoth hf hw names

end Walk.Along

/-! ### Calls -/

namespace World

/-- The world in which both programs have been asked for the flags of callees. -/
def askedAll (w : World) (names : List String) : World :=
  names.foldl (fun w name => (w.asked .orig name).asked .mod name) w

theorem flagged_askedAll (w : World) (names : List String) : w.Flagged (w.askedAll names) := by
  induction names generalizing w with
  | nil => exact .refl w
  | cons name names ih =>
    exact ((w.flagged_asked .orig name).trans (flagged_asked _ .mod name)).trans (ih _)

/-- The callees of both programs that comparators ask for. -/
def callees (w : World) (orig mod : Sub) : List String :=
  (PairRel.callees (w.env .orig) orig ++ PairRel.callees (w.env .mod) mod).eraseDups.mergeSort
    fun a b => !(b < a)

theorem Even.callees (hf : w.Even v) : v.callees orig mod = w.callees orig mod := by
  obtain ⟨n, c, he⟩ := hf .orig
  obtain ⟨n', c', he'⟩ := hf .mod
  rw [World.callees, he, he']
  rfl

/-- The flags of callees are known. -/
def Answers (w : World) (names : List String) : Prop :=
  ∀ name ∈ names, ∀ side, ∃ p, Env.getCalled name (w.env side) = .ok p (w.env side)

/-- Asking for flags that are known changes nothing. -/
theorem Answers.askedAll_eq {names : List String} (h : w.Answers names) : w.askedAll names = w := by
  have hasked {name : String} (side : Side) (hname : name ∈ names) : w.asked side name = w := by
    obtain ⟨p, hp⟩ := h name hname side
    rw [asked, ending_of_ok hp, setEnv_env]
  induction names with
  | nil => rfl
  | cons name names ih =>
    rw [askedAll, List.foldl_cons, hasked .orig List.mem_cons_self, hasked .mod List.mem_cons_self]
    exact ih (fun name' hname => h name' (List.mem_cons_of_mem name hname)) fun side hname =>
      hasked side (List.mem_cons_of_mem name hname)

theorem answers_askedAll {names : List String} (hf : (w.askedAll names).Flagged W) :
    W.Answers names := by
  induction names generalizing w with
  | nil => exact nofun
  | cons name names ih =>
    intro name' hname side
    rcases List.mem_cons.mp hname with rfl | hname
    · have hrest := (flagged_askedAll ((w.asked .orig name').asked .mod name') names).trans hf
      cases side with
      | orig =>
        obtain ⟨p, -, hp⟩ := getCalled_asked ((flagged_asked _ .mod name').trans hrest)
        exact ⟨p, hp⟩
      | mod =>
        obtain ⟨p, -, hp⟩ := getCalled_asked hrest
        exact ⟨p, hp⟩
    · exact ih hf name' hname side

end World

/-- The goal that a callee of the first program is called by the second one. -/
def PairRel.sameCall (name : String) : Walk Constr := do
  let p ← on .orig (Env.getCalled name)
  let q ← on .mod (Env.getCalled name)
  mkGoal (name ++ " called in both") (p.implies q) none

theorem PairRel.sameCalls_eq (orig mod : Sub) : sameCalls orig mod =
    (do mkClause [] (← (← calleesOfBoth orig mod).mapM sameCall)) := rfl

namespace Walk

theorem sameCalls_succeeds (orig mod : Sub) (w : World) :
    Succeeds (PairRel.sameCalls orig mod) w fun _ _ => True := by
  have hcalled (side : Side) (name : String) (w : World) :
      Succeeds (on side (Env.getCalled name)) w fun _ _ => True := by
    obtain ⟨p, hp⟩ := Env.getCalled_succeeds name (w.env side)
    exact .now (by rw [on, hp]) True.intro
  rw [PairRel.sameCalls_eq]
  refine .step rfl (.bind ?_)
  refine (Succeeds.mapM (I := fun _ => True) True.intro fun name _ w _ => ?_).mono fun cs w _ =>
    .now rfl True.intro
  exact .bind ((hcalled .orig name w).mono fun p w _ =>
    .bind ((hcalled .mod name w).mono fun q w _ => .now rfl True.intro))

namespace Along

theorem calleesOfBoth (hf : w.Even v) :
    Along w w v v (fun names names' => names' = names ∧ names = w.callees orig mod)
      (PairRel.calleesOfBoth orig mod) (PairRel.calleesOfBoth orig mod) :=
  env hf (fun _ _ _ => rfl) (env hf (fun _ _ _ => rfl) (pure ⟨rfl, rfl⟩))

/-- Callees are compared where no flags are known, and where all of them are. -/
theorem sameCalls (hW : (w.askedAll (w.callees orig mod)).Flagged W) :
    Along w (w.askedAll (w.callees orig mod)) W W Constr.Echoes (PairRel.sameCalls orig mod)
      (PairRel.sameCalls orig mod) := by
  have hgoals {w : World} {names : List String} (hW : (w.askedAll names).Flagged W) :
      Along w (w.askedAll names) W W (List.Forall₂ Constr.Echoes) (names.mapM PairRel.sameCall)
        (names.mapM PairRel.sameCall) := by
    induction names generalizing w with
    | nil => exact pure .nil
    | cons name names ih =>
      have hrest := (World.flagged_askedAll ((w.asked .orig name).asked .mod name) names).trans hW
      have hone : Along w ((w.asked .orig name).asked .mod name) W W Constr.Echoes
          (PairRel.sameCall name) (PairRel.sameCall name) := by
        refine (getCalled ((World.flagged_asked _ .mod name).trans hrest)).bind fun p p' hp => ?_
        refine (getCalled hrest).bind fun q q' hq => ?_
        subst hp hq
        exact mkGoal ..
      rw [List.mapM_cons]
      exact hone.bind fun c d hcd => (ih hW).bind fun cs ds hcs => pure (.cons hcd hcs)
  refine (calleesOfBoth ((World.flagged_askedAll w _).trans hW).even).bind fun names names' hnames => ?_
  obtain ⟨rfl, rfl⟩ := hnames
  exact (hgoals hW).bind fun cs ds hcs => mkClause (.refl []) (.of_forall₂ hcs)

/-- Where all flags are known, the hypotheses that nothing is called leave the world as it is. -/
theorem nothingCalled (hw : w.Registered orig mod) (h : w.Answers (w.callees orig mod)) :
    Along w w w w Constr.Echoes (Comparator.calls.hyp orig mod) (Comparator.calls.hyp orig mod) := by
  have hflag (side : Side) {name : String} (hname : name ∈ w.callees orig mod) :
      Along w w w w Constr.Echoes (PairRel.nothingCalled side name)
        (PairRel.nothingCalled side name) := by
    obtain ⟨p, hp⟩ := h name hname side
    refine (reads fun a e₁ ha => ?_).bind fun q q' hq => ?_
    · cases hp.symm.trans ha
      exact ⟨rfl, hp⟩
    · subst hq
      exact mkGoal ..
  refine (calleesOfBoth (.refl w)).bind fun names names' hnames => ?_
  obtain ⟨rfl, rfl⟩ := hnames
  refine (mapM (A := Constr.EchoAll) fun name hname => ?_).bind fun css dss hcss => ?_
  · exact (hflag .orig hname).bind fun c c' hc => (hflag .mod hname).bind fun d d' hd =>
      pure (hc.all.append hd.all)
  · refine (equalInputs (.refl w) hw).bind fun c d hcd => mkClause (.refl []) (.append ?_ hcd.all)
    induction hcss with
    | nil => exact .refl []
    | cons hcs _ ih => exact hcs.append ih

/-! ### Lists of comparators -/

/-- Comparators that leave the worlds as they are, but for the one for calls, which is among them. -/
theorem turning {x₀ x₁ y₀ y₁ : World} {f : Comparator → Walk Constr} (hmem : .calls ∈ cmps)
    (hcalls : Along x₀ x₁ y₀ y₁ Constr.Echoes (f .calls) (f .calls))
    (hbefore : ∀ cmp ∈ cmps, cmp ≠ .calls → Along x₀ x₀ y₀ y₀ Constr.Echoes (f cmp) (f cmp))
    (hafter : ∀ cmp ∈ cmps, Along x₁ x₁ y₁ y₁ Constr.Echoes (f cmp) (f cmp)) :
    Along x₀ x₁ y₀ y₁ (List.Forall₂ Constr.Echoes) (cmps.mapM f) (cmps.mapM f) := by
  induction cmps with
  | nil => cases hmem
  | cons cmp cmps ih =>
    rw [List.mapM_cons]
    have hafter' : ∀ cmp ∈ cmps, Along x₁ x₁ y₁ y₁ Constr.Echoes (f cmp) (f cmp) :=
      fun cmp' hcmp => hafter cmp' (List.mem_cons_of_mem cmp hcmp)
    by_cases hc : cmp = .calls
    · subst hc
      exact hcalls.bind fun c d hcd => (mapM hafter').bind fun cs ds hcs => pure (.cons hcd hcs)
    · have hrest := ih ((List.mem_cons.mp hmem).resolve_left (Ne.symm hc))
        (fun cmp' hcmp => hbefore cmp' (List.mem_cons_of_mem cmp hcmp)) hafter'
      exact (hbefore cmp List.mem_cons_self hc).bind fun c d hcd => hrest.bind fun cs ds hcs =>
        pure (.cons hcd hcs)

end Along

end Walk

namespace Compare

open Walk

/-- In another order comparators come to the same. What they ask for at the exits may ask for the flags of
callees; what they ask for at the entries, then, leaves the world as it is. -/
theorem asked_perm (hp : cmps.Perm cmps') (hw : w.Registered orig mod)
    (h : ∀ cmp ∈ cmps, cmp.Canonical K (w.env .orig).arch w.Knows) :
    ∃ W, Along w W w W Constr.EchoAll (cmps.mapM fun cmp => cmp.post orig mod)
        (cmps'.mapM fun cmp => cmp.post orig mod) ∧
      Along W W W W Constr.EchoAll (cmps.mapM fun cmp => cmp.hyp orig mod)
        (cmps'.mapM fun cmp => cmp.hyp orig mod) := by
  by_cases hmem : .calls ∈ cmps
  case neg =>
    have hplain : ∀ cmp ∈ cmps, cmp.Plain K (w.env .orig).arch w.Knows := fun cmp hcmp =>
      (h cmp hcmp).resolve_left fun hc => hmem (hc ▸ hcmp)
    exact ⟨w, .perm hp fun cmp hcmp => .plain_post (.refl w) (hplain cmp hcmp),
      .perm hp fun cmp hcmp => .plain_hyp (.refl w) hw (hplain cmp hcmp)⟩
  -- all flags of callees are asked for
  let W := w.askedAll (w.callees orig mod)
  have hf : w.Flagged W := w.flagged_askedAll _
  have hanswers : W.Answers (W.callees orig mod) := by
    rw [hf.even.callees]
    exact World.answers_askedAll (.refl W)
  have hplain {cmp : Comparator} (hcmp : cmp ∈ cmps) (hc : cmp ≠ .calls) :
      cmp.Plain K (w.env .orig).arch w.Knows := (h cmp hcmp).resolve_left hc
  have hplain' {cmp : Comparator} (hcmp : cmp ∈ cmps) (hc : cmp ≠ .calls) :
      cmp.Plain K (W.env .orig).arch W.Knows := by
    obtain ⟨names, called, he⟩ := hf.even .orig
    rw [he]
    exact (hplain hcmp hc).mono fun x hx => hx.even hf.even
  have hpost {cmp : Comparator} (hcmp : cmp ∈ cmps) :
      Along W W W W Constr.Echoes (cmp.post orig mod) (cmp.post orig mod) := by
    by_cases hc : cmp = .calls
    · have hsame : Along W (W.askedAll (W.callees orig mod)) W W Constr.Echoes
          (PairRel.sameCalls orig mod) (PairRel.sameCalls orig mod) :=
        .sameCalls (by rw [hanswers.askedAll_eq]; exact .refl W)
      rw [hanswers.askedAll_eq] at hsame
      exact hc ▸ hsame
    · exact .plain_post (.refl W) (hplain' hcmp hc)
  have hcalls : Along w W W W Constr.Echoes (PairRel.sameCalls orig mod) (PairRel.sameCalls orig mod) :=
    .sameCalls (.refl W)
  have hback : Along W W w W Constr.Echoes (PairRel.sameCalls orig mod) (PairRel.sameCalls orig mod) :=
    hcalls.back (fun n => let ⟨a, u, ha, _⟩ := sameCalls_succeeds orig mod (w.counting n); ⟨a, u, ha⟩)
      fun _ _ hab => hab.symm
  refine ⟨W, ?_, .perm hp fun cmp hcmp => ?_⟩
  · have hthere : Along w W W W (List.Forall₂ Constr.Echoes) (cmps.mapM fun cmp => cmp.post orig mod)
        (cmps.mapM fun cmp => cmp.post orig mod) :=
      .turning hmem hcalls (fun cmp hcmp hc => .plain_post hf.even (hplain hcmp hc))
        fun cmp hcmp => hpost hcmp
    have hreturn : Along W W w W (List.Forall₂ Constr.Echoes)
        (cmps'.mapM fun cmp => cmp.post orig mod) (cmps'.mapM fun cmp => cmp.post orig mod) :=
      .turning (hp.mem_iff.mp hmem) hback
        (fun cmp hcmp hc => .plain_post hf.even.symm (hplain' (hp.mem_iff.mpr hcmp) hc))
        fun cmp hcmp => hpost (hp.mem_iff.mpr hcmp)
    have hperm := Along.perm hp fun cmp hcmp => hpost hcmp
    refine (hthere.trans hperm fun _ _ _ h₁ h₂ => (Constr.EchoAll.of_forall₂ h₁).trans h₂).trans
      hreturn fun _ _ _ h₁ h₂ => h₁.trans (.of_forall₂ h₂)
  · by_cases hc : cmp = .calls
    · exact hc ▸ .nothingCalled (hw.even hf.even) hanswers
    · exact .plain_hyp (.refl W) (hw.even hf.even) (hplain' hcmp hc)

end Compare

end Precond
