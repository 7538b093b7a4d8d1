import Precond.Proofs.Exact.Blocks

/-! Calls on the environments of two programs, one after the other (`Walk.Reached`). A frame keeps
preconditions of blocks by their names, whatever they are for. A block gets the precondition for what it
is visited for if no block of its name has been visited before, and then the same one until a subroutine
is visited (`Walk.visits_exact`). -/

namespace Precond

open IR Precond.Flow Walk Relation

namespace Walk

/-! ### What frames keep -/

/-- New preconditions are kept for blocks of these names. -/
def Keyed (N : String → Prop) (f f' : Frame) : Prop :=
  ∀ (k : String × Unroll) (c : Constr), f'.preconds[k]? = some c → f.preconds[k]? = some c ∨ N k.1

/-- Preconditions are added for blocks of these names, and the place stays the same one. -/
structure Stores (N : String → Prop) (f f' : Frame) : Prop where
  keyed : Keyed N f f'
  unroll : f'.unroll = f.unroll
  kept {k : String × Unroll} : f.preconds[k]? = some c → f'.preconds[k]? = some c

variable {N N' : String → Prop}

theorem Keyed.of_preconds {f f' : Frame} (h : f'.preconds = f.preconds ∨ f'.preconds = {}) :
    Keyed N f f' := by
  intro k c hc
  rcases h with h | h
  · exact .inl (h ▸ hc)
  · rw [h, Std.HashMap.getElem?_empty] at hc
    cases hc

instance (N : String → Prop) : IsPreorder Frame (Keyed N) where
  refl _ _ _ := .inl
  trans _ _ _ h₁ h₂ k c hc := (h₂ k c hc).elim (h₁ k c) .inr

instance (N : String → Prop) : IsPreorder Frame (Stores N) where
  refl f := ⟨refl_of (Keyed N) f, rfl, id⟩
  trans _ _ _ h₁ h₂ := ⟨trans_of (Keyed N) h₁.keyed h₂.keyed, h₂.unroll.trans h₁.unroll,
    h₂.kept ∘ h₁.kept⟩

theorem Stores.mono {f f' : Frame} (h : Stores N f f') (hN : ∀ t, N t → N' t) : Stores N' f f' where
  keyed k c hc := (h.keyed k c hc).imp_right (hN _)
  unroll := h.unroll
  kept := h.kept

/-- One of two sides. -/
theorem at_mono {side side' : Side} {F G : Frame → Frame → Prop} {f f' : Frame} [IsPreorder Frame G]
    (h : At side F side' f f') (hG : side' = side → F f f' → G f f') : G f f' := by
  unfold At at h
  split at h
  · rename_i hs
    exact hG hs h
  · exact h ▸ refl_of G f

variable {S : Scope} {side : Side} {w w₁ w' : World} {post : Constr} {b : Blk} {s : Sub}

/-- The walk of a subroutine keeps preconditions of its blocks. -/
theorem visitSub_keyed (hs : S.body side s) :
    Keeps S (At side (Keyed fun t => ∃ b ∈ s.blks, b.tid = t)) (visitSub side post s) := by
  refine .env fun e _ => .enterSub_of (fun _ _ => .of_preconds) fun g hg => ?_
  refine ⟨_, settleNode_fills_blocks _ hs hg post _ _, fun f f' hf k c hc => ?_⟩
  exact (hf.new hc).imp_right And.right

/-- The visit of a block by itself keeps the precondition of it. -/
theorem visitBlockAlone_stores (hs : ∀ c, S.body side c) :
    Keeps S (At side (Stores (b.tid = ·))) (visitBlockAlone side post b) := by
  have hplace {e : Env} {f : Frame} {attached : Bool} (hp : f.preconds = e.frame.preconds)
      (hu : f.unroll = e.frame.unroll) : e.Kept (S.rule side) (At side (Stores (b.tid = ·)) side)
        { e with frame := f, attached } := by
    rw [at_self]
    exact .of_core rfl rfl rfl ⟨.of_preconds (.inl hp), hu, fun hc => hp ▸ hc⟩
  have hx : Keeps.Expands S side expandAny := fun post c _ =>
    .env fun e _ => .enterSub fun g hg => ⟨_, settleNode_fills _ (hs c) hg post _ _⟩
  refine Keeps.bind (.modifyEnv fun e => hplace rfl rfl) fun _ => ⟨fun {w} hw => ?_⟩
  have hentered : w.Kept S.rule (At side (Stores (b.tid = ·))) (entered w side b) :=
    .setEnv (hplace rfl rfl)
  have helts := (Keeps.visitElts hx (hs (b.alone "" "")) (List.mem_singleton_self b) (fun _ he => he)
    post).kept (hentered.under hw)
  have hvisited := hentered.trans (helts.mono fun side' f _ hf => hf ▸ refl_of (At side _ side') f)
  rw [ending, visitBlock_eq]
  cases hnone : (w.env side).precond? b.tid (w.env side).frame.unroll with
  | some c => exact .refl w
  | none =>
  rw [ending] at hvisited helts
  cases hrun : visitElts expandAny side post b.elts (entered w side b) with
  | error f w₁ =>
    rw [hrun] at hvisited
    exact hvisited
  | ok pre w₁ =>
    rw [hrun] at hvisited helts
    have hframe : (w₁.env side).frame = { (w.env side).frame with block := some b.tid } := by
      rw [← (helts.env side).frame, entered, World.env_setEnv]
    refine hvisited.trans (.setEnv (.of_core rfl rfl rfl ?_))
    have hnew : (w₁.env side).frame.preconds[(b.tid, (w₁.env side).frame.unroll)]? = none := by
      rw [hframe]
      exact hnone
    rw [at_self]
    refine ⟨fun k c hc => ?_, rfl, fun {c k} hc => ?_⟩ <;> dsimp only [Env.addPrecond] at hc ⊢
    · rw [Std.HashMap.getElem?_insert] at hc
      split at hc
      · rename_i hk
        exact .inr (congrArg Prod.fst (eq_of_beq hk))
      · exact .inl hc
    · rw [Std.HashMap.getElem?_insert, if_neg fun hk => ?_]
      · exact hc
      · rw [← eq_of_beq hk, hnew] at hc
        cases hc

/-! ### What comparisons ask for -/

/-- The frames are left as they are, and what is new in the tables is given for what it stands for. -/
structure Inert (S : Scope) (x : Walk α) : Prop where
  rests : Keeps.Rests S x
  gives (rules : List SideRule) : Respects .orig rules .any Granting x

namespace Inert

variable {x : Walk α}

theorem bind {k : α → Walk β} (hx : Inert S x) (hk : ∀ a, Inert S (k a)) : Inert S (x >>= k) :=
  ⟨hx.rests.bind fun a => (hk a).rests, fun rules => .bind (hx.gives rules) fun a => (hk a).gives rules⟩

theorem pure (a : α) : Inert S (Pure.pure a) := ⟨.pure a, fun _ => .pure a⟩

theorem mapM {xs : List β} {f : β → Walk α} (h : ∀ x, Inert S (f x)) : Inert S (xs.mapM f) :=
  ⟨.mapM fun x => (h x).rests, fun rules => .mapM fun x _ => (h x).gives rules⟩

theorem mkVar (v : Var) : Inert S (on side (Env.mkVar v)) :=
  ⟨.steady (.mkVar v), fun _ => .on fun e => ⟨sideRules_ending (fun _ => .mkVar v) e, .mkVar v e⟩⟩

theorem mkInitVar (v : Var) : Inert S (on side (Env.mkInitVar v)) := by
  have hkept (e : Env) : e.Kept (S.rule side) Eq (ending (Env.mkInitVar v) e) := by
    cases hl : e.inits.lookup v with
    | some t =>
      rw [ending, Env.mkInitVar_of_lookup hl]
      exact .of_core rfl rfl rfl rfl
    | none =>
      obtain ⟨full, names, hname⟩ := Env.constName_eq (initFront ++ v.name) e
      rw [ending, Env.mkInitVar_of_none hl hname]
      cases v.type.sort with
      | error f => exact Env.kept_names e names
      | ok t =>
        exact { (Env.kept_names (R := S.rule side) e names : e.Kept (S.rule side) Eq _) with
          inits := Table.grows_put hl _ }
  have hrules (e : Env) : (ending (Env.mkInitVar v) e).sideRules = e.sideRules := by
    have h := congrArg Env.sideRules (hkept e).policy
    exact h
  refine ⟨⟨fun {w} _ => ?_⟩, fun _ => .on fun e => ⟨hrules e, .mkInitVar v e⟩⟩
  have hend : ending (on side (Env.mkInitVar v)) w =
      w.setEnv side (ending (Env.mkInitVar v) (w.env side)) := by
    rw [ending, ending, on]
    cases Env.mkInitVar v (w.env side) <;> rfl
  rw [hend]
  exact .setEnv (hkept _)

theorem mkGoal (name : String) (p : Term .bool) (tid : Option String) :
    Inert S (Walk.mkGoal name p tid) := ⟨.mkGoal .., fun _ => .mkGoal ..⟩

theorem mkClause (hyps goals : List Constr) : Inert S (Walk.mkClause hyps goals) :=
  ⟨.mkClause .., fun _ => .mkClause ..⟩

theorem equate (name : String) (x y : SomeTerm) : Inert S (Walk.equate name x y) :=
  bind ⟨.lift _, fun _ => .lift _⟩ fun _ => mkGoal ..

theorem snapshot (vars : List Var) : Inert S (Walk.snapshot side vars) :=
  mapM fun v => (mkVar v).bind fun _ => (mkInitVar v).bind fun _ => equate ..

theorem equalVars (vars : List Var) (label : String) : Inert S (PairRel.equalVars vars label) :=
  bind (mapM fun v => (mkVar v).bind fun _ => (mkVar v).bind fun _ => equate ..) fun _ => mkClause ..

theorem formulaForBoth (text : String) : Inert S (Walk.formulaForBoth text) where
  rests := .env fun _ _ => .env fun _ _ => .formula ..
  gives _ := .bind (.of_envs fun _ _ => rfl) fun _ =>
    .bind (.of_envs fun _ _ => rfl) fun _ => .formula ..

theorem condition (text : String) : Inert S (Compare.condition text) := by
  unfold Compare.condition
  split
  · exact pure _
  · exact (formulaForBoth text).bind fun _ => pure _

theorem conjoin (cs : List Constr) : Inert S (Walk.conjoin cs) := by
  unfold Walk.conjoin
  split
  · exact pure _
  · exact mkClause ..

end Inert

/-- A comparison of blocks is inert but for the two visits. -/
theorem blocks_cases {P : {α : Type} → Walk α → Prop} {pre post : List Var} {orig mod : Blk}
    {postText hypText : String}
    (hbind : ∀ {α β : Type} {x : Walk α} {k : α → Walk β}, P x → (∀ a, P (k a)) → P (x >>= k))
    (hinert : ∀ {α : Type} {x : Walk α}, Inert S x → P x)
    (hmod : ∀ c, P (visitBlockAlone .mod c mod)) (horig : ∀ c, P (visitBlockAlone .orig c orig)) :
    P (Compare.blocks pre post orig mod postText hypText) := by
  rw [Compare.blocks_eq]
  exact hbind (hinert (.snapshot _)) fun _ => hbind (hinert (.snapshot _)) fun _ =>
    hbind (hinert (.equalVars ..)) fun outputs => hbind (hinert (.equalVars ..)) fun inputs =>
    hbind (hinert (.condition _)) fun posts => hbind (hinert (.condition _)) fun hyps =>
    hbind (hinert (.conjoin _)) fun asked => hbind (hmod asked) fun preMod =>
    hbind (horig preMod) fun preOrig => hbind (hinert (.conjoin _)) fun hyp => hinert (.mkClause ..)

/-! ### Calls, one after the other -/

/-- A call on the environments of two programs. -/
inductive Visit
  | sub (side : Side) (post : Constr) (s : Sub)
  | block (side : Side) (post : Constr) (b : Blk)
  | blocks (pre post : List Var) (orig mod : Blk) (postText hypText : String)

namespace Visit

def run : Visit → Walk Constr
  | .sub side post s => visitSub side post s
  | .block side post b => visitBlockAlone side post b
  | .blocks pre post orig mod postText hypText => Compare.blocks pre post orig mod postText hypText

/-- The names of the blocks of a program that are visited. -/
def Names : Visit → Side → String → Prop
  | .sub side _ s, side', t => side' = side ∧ ∃ b ∈ s.blks, b.tid = t
  | .block side _ b, side', t => side' = side ∧ b.tid = t
  | .blocks _ _ orig _ _ _, .orig, t => orig.tid = t
  | .blocks _ _ _ mod _ _, .mod, t => mod.tid = t

/-- No subroutine of the program is visited. -/
def Lone : Visit → Side → Prop
  | .sub side _ _, side' => side' ≠ side
  | .block .., _ | .blocks .., _ => True

/-- What a call does to the frame of a program. -/
structure Frames (v : Visit) (side : Side) (f f' : Frame) : Prop where
  keyed : Keyed (v.Names side) f f'
  stores : v.Lone side → Stores (v.Names side) f f'

/-- The policies that programs have. -/
abbrev here (w : World) : Scope := .any fun side => (w.env side).policy

theorem keeps (v : Visit) (w : World) : Keeps (here w) v.Frames v.run := by
  cases v with
  | sub side post s =>
    refine (visitSub_keyed (S := here w) True.intro).mono fun side' f f' hf => ?_
    refine ⟨at_mono hf fun hs hf => ?_, fun hlone => at_mono hf fun hs => absurd hs hlone⟩
    exact fun k c hc => (hf k c hc).imp_right fun hk => ⟨hs, hk⟩
  | block side post b =>
    refine (visitBlockAlone_stores (S := here w) fun _ => True.intro).mono fun side' f f' hf => ?_
    have hstores : Stores (Names (.block side post b) side') f f' :=
      at_mono hf fun hs hf => hf.mono fun t ht => ⟨hs, ht⟩
    exact ⟨hstores.keyed, fun _ => hstores⟩
  | blocks pre post orig mod postText hypText =>
    let N := Names (.blocks pre post orig mod postText hypText)
    have hvisit {side : Side} {b : Blk} (hb : ∀ t, b.tid = t → N side t) (c : Constr) :
        Keeps (here w) (fun side => Stores (N side)) (visitBlockAlone side c b) :=
      (visitBlockAlone_stores (S := here w) fun _ => True.intro).mono fun side' f f' hf =>
        at_mono hf fun hs hf => hf.mono (hs ▸ hb)
    have hstores : Keeps (here w) (fun side => Stores (N side))
        (Compare.blocks pre post orig mod postText hypText) :=
      blocks_cases (S := here w) .bind
        (fun h => h.rests.mono fun side f f' hf => hf ▸ refl_of (Stores _) f)
        (hvisit fun _ => id) (hvisit fun _ => id)
    exact hstores.mono fun side f f' hf => ⟨hf.keyed, fun _ => hf⟩

theorem kept (v : Visit) (w : World) : w.Kept (here w).rule v.Frames (ending v.run w) :=
  (v.keeps w).kept ⟨fun _ => rfl, fun _ => True.intro⟩

theorem gives (v : Visit) (w : World) (side : Side) :
    (w.env side).Gives ((ending v.run w).env side) := by
  cases v with
  | sub side' post s => exact visitSub_gives side' post s w side
  | block side' post b =>
    exact ((respects_visitBlockAlone (R := Granting) post (.any b)).ends rfl (.any _) side).2
  | blocks pre post orig mod postText hypText =>
    have hvisit (side : Side) (b : Blk) (c : Constr) : Respects .orig (w.env .orig).sideRules .any
        Granting (visitBlockAlone side c b) :=
      ⟨fun _ _ => (respects_visitBlockAlone (R := Granting) c (.any b)).ends rfl (.any _)⟩
    have hall : Respects .orig (w.env .orig).sideRules .any Granting
        (Compare.blocks pre post orig mod postText hypText) :=
      blocks_cases (S := here w) .bind (fun h => h.gives _) (hvisit .mod mod) (hvisit .orig orig)
    exact (hall.ends rfl (.any _) side).2

end Visit

/-- Worlds that calls lead to, however they end, the last call first. Between the calls constraints are
built, and tables grow. -/
inductive Reached (w₀ : World) : List Visit → World → Prop
  | start : Reached w₀ [] w₀
  | meanwhile {u u' : World} : Reached w₀ vs u → (∀ side, (u.env side).Later False (u'.env side)) →
    (∀ side, (u'.env side).frame = (u.env side).frame) → Reached w₀ vs u'
  | visit {u : World} (v : Visit) : Reached w₀ vs u → Reached w₀ (v :: vs) (ending v.run u)

namespace Reached

variable {w₀ : World} {vs us : List Visit}

theorem gives (h : Reached w₀ vs w) (side : Side) : (w₀.env side).Gives (w.env side) := by
  induction h with
  | start => exact .refl _
  | meanwhile _ hl _ ih => exact ih.trans (hl side).gives
  | @visit _ u v _ ih => exact ih.trans (v.gives u side)

theorem default (h : Reached w₀ vs w) (hd : ∀ side, Default side w₀) (side : Side) :
    Default side w := by
  induction h with
  | start => exact hd side
  | meanwhile _ hl _ ih => exact ih.later (hl side)
  | @visit _ u v _ ih =>
    have hpolicy := ((v.kept u).env side).policy
    have hreach := congrArg Env.reach hpolicy
    have hrules := congrArg Env.sideRules hpolicy
    exact ⟨(v.gives u side).named ih.named, Eq.trans hreach ih.reach, Eq.trans hrules ih.sideRules⟩

/-- What calls do to the frame of a program. -/
theorem frames (h : Reached w₀ vs w) (side : Side) :
    Keyed (fun t => ∃ v ∈ vs, v.Names side t) (w₀.env side).frame (w.env side).frame ∧
      ((∀ v ∈ vs, v.Lone side) →
        Stores (fun t => ∃ v ∈ vs, v.Names side t) (w₀.env side).frame (w.env side).frame) := by
  induction h with
  | start => exact ⟨refl_of (Keyed _) _, fun _ => refl_of (Stores _) _⟩
  | meanwhile _ _ hf ih => exact hf side ▸ ih
  | @visit vs u v _ ih =>
    have hv := ((v.kept u).env side).frame
    have hmore {t : String} : (∃ v ∈ vs, v.Names side t) → ∃ x ∈ v :: vs, x.Names side t :=
      fun ⟨x, hx, ht⟩ => ⟨x, List.mem_cons_of_mem _ hx, ht⟩
    have hlast {t : String} (ht : v.Names side t) : ∃ x ∈ v :: vs, x.Names side t :=
      ⟨v, List.mem_cons_self, ht⟩
    refine ⟨fun k c hc => ?_, fun hlone => ?_⟩
    · rcases hv.keyed k c hc with hc | ht
      · exact (ih.1 k c hc).imp_right hmore
      · exact .inr (hlast ht)
    · have hfirst := (ih.2 fun x hx => hlone x (List.mem_cons_of_mem _ hx)).mono fun _ => hmore
      have hthen := (hv.stores (hlone v List.mem_cons_self)).mono fun _ => hlast
      exact trans_of (Stores _) hfirst hthen

/-- A block of a name that has not been visited has no precondition. -/
theorem unkept (h : Reached w₀ vs w) (hempty : (w₀.env side).frame = .start) {t : String}
    (hnew : ∀ v ∈ vs, ¬ v.Names side t) (u : Unroll) : (w.env side).precond? t u = none := by
  cases hk : (w.env side).precond? t u with
  | none => rfl
  | some c =>
    rcases (h.frames side).1 (t, u) c hk with hc | ⟨v, hv, ht⟩
    · rw [hempty, Frame.start, Std.HashMap.getElem?_empty] at hc
      cases hc
    · exact absurd ht (hnew v hv)

/-- A precondition that is kept is given again until a subroutine is visited. -/
theorem again (h : Reached w₀ vs w) (hlone : ∀ v ∈ vs, v.Lone side)
    (hkept : (w₀.env side).precond? b.tid (w₀.env side).frame.unroll = some pre) (post : Constr) :
    visitBlockAlone side post b w = .ok pre (attached w side) := by
  have hs := (h.frames side).2 hlone
  refine visitBlockAlone_kept ?_
  rw [Env.precond?, hs.unroll]
  exact hs.kept hkept

/-- The visit of a block of a name that has not been visited. -/
theorem answers (h : Reached w₀ vs w) (hd : ∀ side, Default side w₀)
    (hempty : (w₀.env side).frame = .start) (hnew : ∀ v ∈ vs, ¬ v.Names side b.tid) (hb : b.Linear)
    {F : Term .bool} (hpost : post.Fresh w.nodes) (hF : post.toFormula = .ok F)
    (hrun : visitBlockAlone side post b w = .ok pre w') :
    (w'.env side).precond? b.tid (w'.env side).frame.unroll = some pre ∧
      ∃ G, pre.toFormula = .ok G ∧ ∀ m, ∃ σ, Assigns b.defs (w'.state side m) σ ∧
        (G.holds m ↔ F.holds (w'.after side m σ)) := by
  have hdef := h.default hd side
  have hledger := hpost.ledger hF
  obtain ⟨K', hw, hk, hunroll, hkept, hbefore⟩ := visitBlockAlone_ok hb hdef hledger .refl
    (h.unkept hempty hnew _) hrun
  obtain ⟨G, hG, hGm⟩ := (hw.ledger hledger).formula hk
  refine ⟨hunroll ▸ hkept, G, hG, fun m => ?_⟩
  obtain ⟨m', hoff, ha, htruth⟩ := hbefore _ (.refl _) (hw.later.named hdef.named).separate m
  refine ⟨_, ha, ?_⟩
  rw [World.after, Model.withStore_store hoff, hGm, htruth, hpost.truth hF]

/-- The comparison of two blocks of names that have not been visited. -/
theorem compares (h : Reached w₀ vs w) (hd : ∀ side, Default side w₀)
    (hempty : ∀ side, (w₀.env side).frame = .start) {pre post : List Var} {orig mod : Blk}
    {postText hypText : String} {c : Constr} (hnew : ∀ v ∈ vs, ¬ v.Names .orig orig.tid)
    (hnew' : ∀ v ∈ vs, ¬ v.Names .mod mod.tid) (ho : orig.Linear) (hm : mod.Linear)
    (hrun : Compare.blocks pre post orig mod postText hypText w = .ok c w') (ha : Compare.Apart w') :
    ∃ first second w₁ u φ, snapshot .orig (Compare.noted orig pre post) w = .ok first w₁ ∧
      snapshot .mod (Compare.noted mod pre post) w₁ = .ok second u ∧ c.toFormula = .ok φ ∧
      ∀ m, ∃ m', Compare.Ran w' orig.defs mod.defs m m' ∧
        (φ.holds m ↔ (u.Asks pre hypText m → u.Asks post postText m')) := by
  obtain ⟨a, rfl, rfl⟩ := Compare.blocks_alone (K := fun _ => False) hrun
  obtain ⟨-, ⟨K', hK', hc⟩, htruth⟩ := a.truth ho hm (h.default hd) .empty
    (h.unkept (hempty .orig) hnew _) (h.unkept (hempty .mod) hnew' _)
  obtain ⟨φ, hφ, hφm⟩ := hK'.formula hc
  refine ⟨_, _, _, _, φ, a.first_ok, a.second_ok, hφ, fun m => ?_⟩
  obtain ⟨m', hran, hiff⟩ := htruth ha m
  exact ⟨m', hran, by rw [hφm]; exact hiff⟩

end Reached

/-- On environments as they are set up, after any calls: a block of definitions gets the precondition of
its definitions for what it is visited for, if no block of its name has been visited, and it gets the
same one again, whatever for, until a subroutine is visited. The comparison of blocks of such names asks
at the exits for what is so once the definitions have been executed. -/
theorem visits_exact {w₀ w : World} {vs : List Visit} (hd : ∀ side, Default side w₀)
    (hempty : ∀ side, (w₀.env side).frame = .start) (h : Reached w₀ vs w) :
    (∀ side post F b pre w', b.Linear → (∀ v ∈ vs, ¬ v.Names side b.tid) → post.Fresh w.nodes →
      post.toFormula = .ok F → visitBlockAlone side post b w = .ok pre w' →
        (∃ G, pre.toFormula = .ok G ∧ ∀ m, ∃ σ, Assigns b.defs (w'.state side m) σ ∧
          (G.holds m ↔ F.holds (w'.after side m σ))) ∧
        ∀ us w₁, Reached w' us w₁ → (∀ v ∈ us, v.Lone side) →
          ∀ q, ∃ w₂, visitBlockAlone side q b w₁ = .ok pre w₂) ∧
    (∀ pre post orig mod postText hypText c w', orig.Linear → mod.Linear →
      (∀ v ∈ vs, ¬ v.Names .orig orig.tid) → (∀ v ∈ vs, ¬ v.Names .mod mod.tid) →
      Compare.blocks pre post orig mod postText hypText w = .ok c w' → Compare.Apart w' →
        ∃ first second w₁ u φ, snapshot .orig (Compare.noted orig pre post) w = .ok first w₁ ∧
          snapshot .mod (Compare.noted mod pre post) w₁ = .ok second u ∧ c.toFormula = .ok φ ∧
          ∀ m, ∃ m', Compare.Ran w' orig.defs mod.defs m m' ∧
            (φ.holds m ↔ (u.Asks pre hypText m → u.Asks post postText m'))) := by
  refine ⟨fun side post F b pre w' hb hnew hpost hF hrun => ?_,
    fun pre post orig mod postText hypText c w' ho hm hnew hnew' hrun ha =>
      h.compares hd hempty hnew hnew' ho hm hrun ha⟩
  obtain ⟨hkept, hexact⟩ := h.answers hd (hempty side) hnew hb hpost hF hrun
  exact ⟨hexact, fun us w₁ hafter hlone q => ⟨_, hafter.again hlone hkept q⟩⟩

/-! ### Setting a register before its doublings are compared -/

open Compare in
/-- A block of another name. -/
def earlier : Blk := { setting (.lit 1#32) with tid := "%earlier" }

/-- The register is zero. -/
def zeroed : Term .bool := .eq (.const "R0" (.bv 32)) (.numeral 32 0)

open Compare in
/-- The doublings, when a goal has been built. -/
def built : World := { doubles with nodes := 1 }

open Compare in
theorem earlier_visited : Succeeds (visitBlockAlone .orig (.goal 0 "zero" zeroed none) earlier) built
    fun _ w => Succeeds (blocks [reg] [reg] addition shift "" "") w fun _ w' =>
      (w'.env .orig).vars = [(reg, ⟨.bv 32, .const "R0" (.bv 32)⟩)] ∧
      (w'.env .orig).inits = [(reg, ⟨.bv 32, .const "init_R0" (.bv 32)⟩)] ∧
      (w'.env .mod).vars = [(reg, ⟨.bv 32, .const "mod.R0_0" (.bv 32)⟩)] ∧
      (w'.env .mod).inits = [(reg, ⟨.bv 32, .const "mod.init_R0_1" (.bv 32)⟩)] := by
  unfold visitBlockAlone
  refine .step rfl (.block (precond?_empty rfl ..) (.now rfl ?_))
  dsimp only [World.setEnv, World.env, Env.addPrecond]
  rw [blocks_eq]
  have horig : noted addition [reg] [reg] = [reg] := by decide
  have hmod : noted shift [reg] [reg] = [reg] := by decide
  rw [horig, hmod]
  have hsnap (side : Side) : snapshot side [reg] = (do return [← entryGoal side reg]) := by
    rw [snapshot_eq, sorted_reg, List.mapM_cons, List.mapM_nil]
    simp only [pure_bind]
  rw [hsnap, hsnap]
  refine .bind (.bind (.step rfl (.step rfl (.now rfl ?_))))
  refine .now rfl ?_
  refine .bind (.bind (.step rfl (.step rfl (.now rfl ?_))))
  refine .now rfl ?_
  dsimp only [World.setEnv, World.env]
  refine .bind (relates ?_)
  refine .step rfl (.step rfl (.step rfl (.now rfl ?_)))
  refine .bind (relates ?_)
  refine .step rfl (.step rfl (.step rfl (.now rfl ?_)))
  refine .step rfl (.step rfl ?_)
  dsimp only [World.setEnv, World.env]
  refine .step rfl ?_
  refine .bind ?_
  unfold visitBlockAlone
  refine .step rfl (.block (precond?_empty rfl ..) (.now rfl ?_))
  dsimp only [World.setEnv, World.env, Env.addPrecond]
  refine .bind ?_
  refine .step rfl (.block ((precond?_insert rfl ..).trans ?_) (.now rfl ?_))
  · rw [if_neg (by decide)]
    exact Std.HashMap.getElem?_empty ..
  exact .step rfl (.now rfl ⟨rfl, rfl, rfl, rfl⟩)

open Compare in
theorem visits_exact_doubles : ∃ pre w₁ c w₂ G φ first second u₁ u,
    visitBlockAlone .orig (.goal 0 "zero" zeroed none) earlier built = .ok pre w₁ ∧
    pre.toFormula = .ok G ∧
    (∀ m, ∃ σ, Assigns earlier.defs (w₁.state .orig m) σ ∧
      (G.holds m ↔ zeroed.holds (w₁.after .orig m σ))) ∧
    blocks [reg] [reg] addition shift "" "" w₁ = .ok c w₂ ∧
    snapshot .orig (noted addition [reg] [reg]) w₁ = .ok first u₁ ∧
    snapshot .mod (noted shift [reg] [reg]) u₁ = .ok second u ∧ c.toFormula = .ok φ ∧
    (∀ m, ∃ m', Ran w₂ addition.defs shift.defs m m' ∧
      (φ.holds m ↔ (u.Asks [reg] "" m → u.Asks [reg] "" m'))) ∧
    ∀ q, ∃ w₃, visitBlockAlone .orig q earlier w₂ = .ok pre w₃ := by
  obtain ⟨pre, w₁, hpre, c, w₂, hc, ho, hoi, hm, hmi⟩ := earlier_visited
  have hfresh : doubles.Fresh := by constructor <;> rintro (_ | _) <;> rfl
  have hd (side : Side) : Default side doubles :=
    .fresh (hfresh.vars side) (hfresh.reach side) (hfresh.sideRules side)
  have hstart : Reached doubles [] built :=
    .meanwhile .start (fun side => by cases side <;> exact .refl _ _)
      fun side => by cases side <;> rfl
  have hvisited : Reached doubles [.block .orig (.goal 0 "zero" zeroed none) earlier] w₁ :=
    ending_of_ok hpre ▸ hstart.visit (.block .orig (.goal 0 "zero" zeroed none) earlier)
  have hblocks : Reached w₁ [.blocks [reg] [reg] addition shift "" ""] w₂ :=
    ending_of_ok hc ▸ Reached.start.visit (.blocks [reg] [reg] addition shift "" "")
  have hgives (side : Side) : (doubles.env side).Gives (w₂.env side) :=
    (hvisited.gives side).trans (hblocks.gives side)
  have hreg {n : String} {v : Var} {t : SomeTerm}
      (hv : List.lookup v [(reg, (⟨.bv 32, .const n (.bv 32)⟩ : SomeTerm))] = some t) :
      Mentions doubles [reg] [reg] addition shift v := by
    cases List.mem_singleton.mp (Table.mem_of_lookup hv)
    exact .pre (List.mem_singleton_self reg)
  have hwithin : w₂.Within (Mentions doubles [reg] [reg] addition shift) := by
    refine ⟨fun side hv => ?_, fun side hv => ?_⟩ <;> cases side
    · exact hreg (ho ▸ hv)
    · exact hreg (hm ▸ hv)
    · exact hreg (hoi ▸ hv)
    · exact hreg (hmi ▸ hv)
  have hdistinct := freshened_doubles.distinct hgives
    (fun side => (hgives side).tidy (hfresh.tidy side)) hwithin
  obtain ⟨⟨G, hG, hexact⟩, hagain⟩ := (visits_exact hd hfresh.frame hstart).1 .orig _ zeroed earlier pre w₁
    ⟨rfl, rfl⟩ nofun (.goal Nat.one_pos zeroed none) (Constr.toFormula_goal ..) hpre
  obtain ⟨first, second, u₁, u, φ, hfirst, hsecond, hφ, hcompared⟩ :=
    (visits_exact hd hfresh.frame hvisited).2 _ _ _ _ _ _ c w₂ ⟨rfl, rfl⟩ ⟨rfl, rfl⟩ (List.forall_mem_singleton.mpr
      fun h => absurd h.2 (by decide)) (List.forall_mem_singleton.mpr fun h => nomatch h.1) hc hdistinct.toApart
  exact ⟨pre, w₁, c, w₂, G, φ, first, second, u₁, u, hpre, hG, hexact, hc, hfirst, hsecond, hφ,
    hcompared, hagain _ _ hblocks (List.forall_mem_singleton.mpr True.intro)⟩

end Walk

end Precond
