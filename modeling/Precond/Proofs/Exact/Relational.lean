import Precond.Proofs.Compare.Opening
import Precond.Proofs.Exact.Basic

/-! The comparison of two subroutines is exact. What it asks of a model is that, where the entries
are related and the values at entry are recalled, the two runs end in related states
(`Compare.subs_exact`). The walk of the first program is for a precondition of the second one; it
changes the constants of the first program only, so that the run of the second program starts from
its own entry state. -/

namespace Precond.Compare

open IR Precond.Flow Walk

/-- The constants of the variables of two programs, and of their values at entry, are different
ones. -/
structure Apart (w : World) : Prop where
  vars : (w.env .orig).vars.lookup u = some t → (w.env .mod).vars.lookup v ≠ some t
  const (side : Side) : (w.env side).inits.lookup v = some t → ∃ n s, t = ⟨s, .const n s⟩
  inits (side side' : Side) :
    (w.env side).vars.lookup u = some t → (w.env side').inits.lookup v ≠ some t

/-- What two relations give for two subroutines, one after the other. -/
inductive Gives (Q H : PairRel) (orig mod : Sub) : Constr → Constr → Prop
  | mk : Q orig mod w = .ok post w₁ → H orig mod w₁ = .ok hyp w₂ → Gives Q H orig mod post hyp

variable {K : Constr → Prop} {w w' : World} {c : Constr} {orig mod : Sub} {Q H : PairRel}

theorem conjoin_truth {cs : List Constr} (hcs : ∀ d ∈ cs, d.Formal)
    (h : conjoin cs w = .ok c w') (m : Model) : c.truth m ↔ ∀ d ∈ cs, d.truth m := by
  unfold conjoin at h
  split at h
  · cases h
    simp
  · obtain ⟨rfl, -⟩ := mkClause_ok h
    have hnil : ∀ d ∈ ([] : List Constr), d.Formal := nofun
    rw [Constr.truth_clause hnil hcs]
    exact List.all_eq_true

theorem mapM_single {f : α → Walk β} {a : α} {bs : List β} (h : [a].mapM f w = .ok bs w') :
    ∃ b, bs = [b] ∧ f a w = .ok b w' := by
  rw [List.mapM_cons] at h
  obtain ⟨b, w₁, hb, h₁⟩ := bind_ok h
  cases h₁
  exact ⟨b, rfl, hb⟩

/-- At the entries a comparison asks for what the comparators ask for, and that the values at entry are
recalled. -/
theorem Opening.entry_truth {cmps : List Comparator} (o : Opening cmps orig mod w)
    (hcmps : ∀ cmp ∈ cmps, cmp.Reads K) (hK : Constr.Ledger K w.nodes)
    {V₁ I₁ V₂ I₂ : Table Var SomeTerm} (m : Model) (hV₁ : Table.Grows (o.start.env .orig).vars V₁)
    (hI₁ : Table.Grows (o.start.env .orig).inits I₁) (hV₂ : Table.Grows (o.start.env .mod).vars V₂)
    (hI₂ : Table.Grows (o.start.env .mod).inits I₂) : o.entry.truth m ↔
      (∀ d ∈ o.hyps, d.truth m) ∧ m.Recalls V₁ I₁ (varsOf (w.env .orig) orig) ∧
        m.Recalls V₂ I₂ (varsOf (w.env .mod) mod) := by
  obtain ⟨K₂, K₃, K', hb₂, hb₃, hb, -, -, hall, -⟩ := o.built hcmps
  have hfirst := (builds_snapshot (fun _ => False) .orig _).later o.first_ok
  have hsecond := (builds_snapshot (fun _ => False) .mod _).later o.second_ok
  have hl (side) := (hb₃.trans hb).later side
  have hl₁ := (hsecond .orig).trans (hl .orig)
  have hvars : varsOf (o.w₁.env .mod) mod = varsOf (w.env .mod) mod := by
    rw [varsOf, varsOf, (hfirst .mod).arch]
  have hformal : ∀ d ∈ o.hyps ++ o.first ++ o.second, d.Formal :=
    fun d hd => (((hb₂.trans hb₃).trans hb).ledger hK).formal (hall d hd)
  rw [conjoin_truth hformal o.entry_ok m, List.forall_mem_append, List.forall_mem_append,
    snapshot_truth o.first_ok (hl₁.vars.trans hV₁) (hl₁.inits.trans hI₁) m,
    snapshot_truth o.second_ok ((hl .mod).vars.trans hV₂) ((hl .mod).inits.trans hI₂) m, hvars,
    and_assoc]

/-- What a comparison asks for at the entries: that they are related, and that the values at entry
are recalled. -/
structure Prepared (K : Constr → Prop) (Q H : PairRel) (orig mod : Sub) (w w₁ : World)
    (post hyp entry : Constr) : Prop where
  gives : Gives Q H orig mod post hyp
  built : ∃ K', Built K K' w w₁ ∧ K' post ∧ K' hyp ∧ K' entry
  entry {V₁ I₁ V₂ I₂ : Table Var SomeTerm} (m : Model) : Constr.Ledger K w.nodes →
    Table.Grows (w₁.env .orig).vars V₁ → Table.Grows (w₁.env .orig).inits I₁ →
    Table.Grows (w₁.env .mod).vars V₂ → Table.Grows (w₁.env .mod).inits I₂ →
    (entry.truth m ↔ hyp.truth m ∧ m.Recalls V₁ I₁ (varsOf (w.env .orig) orig) ∧
      m.Recalls V₂ I₂ (varsOf (w.env .mod) mod))

theorem subs_inv (hQ : Q.Reads K) (hH : H.Reads K) (h : subs [⟨Q, H⟩] orig mod w = .ok c w') :
    ∃ w₁ post hyp entry preMod w₂ pre w₃, Prepared K Q H orig mod w w₁ post hyp entry ∧
      visitSub .mod post mod w₁ = .ok preMod w₂ ∧ visitSub .orig preMod orig w₂ = .ok pre w₃ ∧
      c = .clause w₃.nodes [entry] [pre] ∧ w' = { w₃ with nodes := w₃.nodes + 1 } := by
  obtain ⟨o, preMod, w₁, pre, w₂, hmod, horig, hc, hw'⟩ := subs_opening h
  obtain ⟨post, hposts, hpost⟩ := mapM_single o.posts_ok
  obtain ⟨hyp, hhyps, hhyp⟩ := mapM_single o.hyps_ok
  have hjoin := o.post_ok
  rw [hposts] at hjoin
  obtain ⟨rfl, hworld⟩ := EStateM.Result.ok.inj hjoin
  have hreads : ∀ cmp ∈ [(⟨Q, H⟩ : Comparator)], cmp.Reads K :=
    fun cmp hcmp => List.mem_singleton.mp hcmp ▸ ⟨hQ, hH⟩
  obtain ⟨K₂, K₃, K', hb₂, hb₃, hb, -, hk, hall, hentry⟩ := o.built hreads
  have hbefore := (hb₂.trans hb₃).trans hb
  have hkh : K' hyp := hall hyp (by simp [hhyps])
  refine ⟨o.start, o.post, hyp, o.entry, preMod, w₁, pre, w₂, ⟨.mk (hworld ▸ hpost) hhyp, ?_, ?_⟩, hmod, horig,
    hc, hw'⟩
  · exact ⟨K', hbefore, hk, hkh, hentry⟩
  · intro V₁ I₁ V₂ I₂ m hK hV₁ hI₁ hV₂ hI₂
    rw [o.entry_truth hreads hK m hV₁ hI₁ hV₂ hI₂, hhyps, List.forall_mem_singleton]

/-- The runs leave the constants for the values at entry as they are. -/
theorem Apart.recalls (h : Apart w) (m : Model) (σ σ' : Store) (side : Side) :
    (w.after .mod (w.after .orig m σ) σ').store (w.env side).inits =
      m.store (w.env side).inits := by
  have hkeep (m : Model) (side' : Side) (σ : Store) :
      (w.after side' m σ).store (w.env side).inits = m.store (w.env side).inits :=
    (m.off_withStore _ σ).store_eq (fun _ _ => h.const side) fun _ _ _ => h.inits side' side
  rw [hkeep, hkeep]

/-- The walk of the second subroutine, and then of the first one for its precondition. -/
theorem visitSubs_exact {w₁ w₂ : World} {post preMod pre : Constr} (horig : orig.Straight)
    (hmod : mod.Straight) (hd : ∀ side, Default side w) (hK : Constr.Ledger K w.nodes)
    (hpost : K post) (hkept : Unkept .orig K orig w) (hkept' : Unkept .mod K mod w)
    (hm : visitSub .mod post mod w = .ok preMod w₁)
    (ho : visitSub .orig preMod orig w₁ = .ok pre w₂)
    (ha : ∀ u v t, (w₂.env .orig).vars.lookup u = some t → (w₂.env .mod).vars.lookup v ≠ some t) :
    ∃ K', (∀ c, K c → K' c) ∧ Constr.Ledger K' w₂.nodes ∧ K' pre ∧
      (∀ side, (w.env side).Later False (w₂.env side)) ∧ ∀ m, ∃ σ σ',
        orig.Ends (w.env .orig).subs (w₂.state .orig m) σ ∧
          mod.Ends (w.env .mod).subs (w₂.state .mod m) σ' ∧
          pre.truth m = post.truth (w₂.after .mod (w₂.after .orig m σ) σ') := by
  obtain ⟨K₁, hw₁, hk₁, hrun⟩ := visitSub_straight hmod (hd .mod) hK hpost
    (hkept'.root hpost) hm
  have horig₁ : w₁.env .orig = w.env .orig := hw₁.other nofun
  have hl₁ : (w.env .orig).Later False (w₁.env .orig) := horig₁ ▸ .refl ..
  have hkept₁ : Unkept .orig K₁ orig w₁ :=
    hkept.later (by rw [horig₁]) hw₁.nodes fun _ hc => hw₁.fresh hc
  obtain ⟨K₂, hw₂, hk₂, hrun'⟩ := visitSub_straight horig ((hd .orig).later hl₁) (hw₁.ledger hK) hk₁
    (hkept₁.root hk₁) ho
  have hmod₂ : w₂.env .mod = w₁.env .mod := hw₂.other nofun
  have hl (side : Side) : (w.env side).Later False (w₂.env side) := by
    cases side with
    | orig => exact hl₁.trans hw₂.later
    | mod => exact hmod₂ ▸ hw₁.later
  have hsep (side : Side) : Separate (w₂.env side).vars :=
    ((hl side).named (hd side).named).separate
  refine ⟨K₂, fun c hc => hw₂.grows (hw₁.grows hc), hw₂.ledger (hw₁.ledger hK), hk₂, hl,
    fun m => ?_⟩
  obtain ⟨σ, hσ, hpre⟩ := hrun' _ (.refl _) (hsep .orig) m
  obtain ⟨σ', hσ', hpreMod⟩ := hrun (w₂.env .mod).vars (hmod₂ ▸ .refl _) (hsep .mod)
    (m.withStore (w₂.env .orig).vars σ)
  -- the run of the first program leaves the entry state of the second one as it is
  rw [(m.off_withStore _ σ).store_eq (fun _ _ => (hsep .mod).const) ha] at hσ'
  rw [horig₁] at hσ
  exact ⟨σ, σ', hσ, hσ', hpre.trans hpreMod⟩

/-- The comparison of two straight subroutines. -/
theorem subs_exact (horig : orig.Straight) (hmod : mod.Straight) (hd : ∀ side, Default side w)
    (hkept : Unkept .orig K orig w) (hkept' : Unkept .mod K mod w) (hK : Constr.Ledger K w.nodes)
    (hQ : Q.Reads K) (hH : H.Reads K) (h : subs [⟨Q, H⟩] orig mod w = .ok c w') (ha : Apart w') :
    ∃ post hyp φ ψ χ, Gives Q H orig mod post hyp ∧ c.toFormula = .ok φ ∧
      post.toFormula = .ok ψ ∧ hyp.toFormula = .ok χ ∧
      (∀ m σ σ' side, (w'.after .mod (w'.after .orig m σ) σ').store (w'.env side).inits =
        m.store (w'.env side).inits) ∧
      ((∀ m, φ.holds m) ↔ ∀ m, χ.holds m →
        m.Recalls (w'.env .orig).vars (w'.env .orig).inits (varsOf (w.env .orig) orig) →
        m.Recalls (w'.env .mod).vars (w'.env .mod).inits (varsOf (w.env .mod) mod) →
        ∃ σ σ', orig.Ends (w.env .orig).subs (w'.state .orig m) σ ∧
          mod.Ends (w.env .mod).subs (w'.state .mod m) σ' ∧
          ψ.holds (w'.after .mod (w'.after .orig m σ) σ')) := by
  obtain ⟨w₁, post, hyp, entry, preMod, w₂, pre, w₃, hprep, hm, ho, rfl, rfl⟩ := subs_inv hQ hH h
  obtain ⟨K₁, hb, hk, hkh, hke⟩ := hprep.built
  have hK₁ := hb.ledger hK
  obtain ⟨K₃, hgrows, hK₃, hk₃, hl, hruns⟩ := visitSubs_exact horig hmod
    (fun side => (hd side).later (hb.later side)) hK₁ hk
    (hkept.later (by rw [(hb.stays .orig).frame]) hb.nodes fun _ hc => hb.fresh hc)
    (hkept'.later (by rw [(hb.stays .mod).frame]) hb.nodes fun _ hc => hb.fresh hc) hm ho
    fun _ _ _ => ha.vars
  have he : ∀ d ∈ [entry], d.Formal :=
    fun d hd => hK₃.formal (List.mem_singleton.mp hd ▸ hgrows _ hke)
  have hp : ∀ d ∈ [pre], d.Formal := fun d hd => hK₃.formal (List.mem_singleton.mp hd ▸ hk₃)
  have hclause := hK₃.add (c := .clause w₃.nodes [entry] [pre]) rfl (Constr.formal_clause he hp)
    fun d hd => by
      rcases List.mem_cons.mp hd with rfl | hd
      · exact hgrows _ hke
      · exact List.mem_singleton.mp hd ▸ hk₃
  obtain ⟨φ, hφ, hφm⟩ := hclause.formula (.inr rfl)
  obtain ⟨ψ, hψ, hψm⟩ := hK₁.formula hk
  obtain ⟨χ, hχ, hχm⟩ := hK₁.formula hkh
  refine ⟨post, hyp, φ, ψ, χ, hprep.gives, hφ, hψ, hχ, ha.recalls, forall_congr' fun m => ?_⟩
  have hentry := hprep.entry m hK (hl .orig).vars (hl .orig).inits (hl .mod).vars (hl .mod).inits
  obtain ⟨σ, σ', hσ, hσ', hpre⟩ := hruns m
  rw [(hb.later .orig).subs] at hσ
  rw [(hb.later .mod).subs] at hσ'
  have htruth : φ.holds m ↔ (entry.truth m → pre.truth m) := by
    rw [hφm, Constr.truth_clause he hp]
    simp [← Bool.not_eq_true, imp_iff_not_or]
  rw [htruth, hentry, ← hχm, hpre, ← hψm, and_imp, and_imp]
  refine imp_congr_right fun _ => imp_congr_right fun _ => imp_congr_right fun _ => ?_
  refine ⟨fun htrue => ⟨σ, σ', hσ, hσ', htrue⟩, ?_⟩
  rintro ⟨τ, τ', hτ, hτ', htrue⟩
  cases hσ.unique hτ
  cases hσ'.unique hτ'
  exact htrue

/-! ### Doubling a register by an addition, and by a shift -/

def reg : Var := ⟨"R0", .word 32⟩

def cells : Var := ⟨"mem", .memory 32 8⟩

/-- One assignment to the register. -/
def assigning (rhs : Exp) : Sub where
  name := "double"
  tid := "@double"
  addr := none
  args := []
  blks := [⟨"%only", [], [⟨reg, rhs, "%set"⟩], [⟨.ret (.direct "%exit"), .always, "%ret"⟩]⟩]

def added : Sub := assigning (.bin .add (.var reg) (.var reg))

def shifted : Sub := assigning (.bin .shl (.var reg) (.lit 1#32))

def oneRegister : Arch := { Arch.arm with gprs := [reg], sp := reg, mem := cells, flags := [] }

def doubles : World where
  orig := Env.start oneRegister [added]
  mod := { Env.start oneRegister [shifted] with freshen := true, names := ⟨some "mod", 0⟩ }
  nodes := 0
  translations := 0

/-- The register is equal in both programs, at the entries and at the exits. -/
def equalReg : Comparator := .registers [reg] [reg]

/-- The constants of the two variables. -/
def consts (r c : String) : Table Var SomeTerm :=
  [(reg, ⟨.bv 32, .const r (.bv 32)⟩), (cells, ⟨.mem 32 8, .const c (.mem 32 8)⟩)]

theorem const_of_lookup {r c : String} (h : (consts r c).lookup v = some t) :
    ∃ n s, t = ⟨s, .const n s⟩ ∧ (n = r ∨ n = c) := by
  rw [consts, List.lookup_cons, List.lookup_cons] at h
  split at h
  · cases h
    exact ⟨_, _, rfl, .inl rfl⟩
  · split at h <;> cases h
    exact ⟨_, _, rfl, .inr rfl⟩

theorem consts_apart {r c r' c' : String} (hd : ∀ n, n = r ∨ n = c → ¬ (n = r' ∨ n = c'))
    (h : (consts r c).lookup u = some t) : (consts r' c').lookup v ≠ some t := by
  intro h'
  obtain ⟨n, s, rfl, hn⟩ := const_of_lookup h
  obtain ⟨n', s', ht, hn'⟩ := const_of_lookup h'
  cases ht
  exact hd n hn hn'

/-- A subroutine of one assignment has no loop. -/
theorem straight_added : added.Straight :=
  ⟨by decide, by decide, by decide, .of_rank (fun _ => 0) (by decide)⟩

theorem straight_shifted : shifted.Straight :=
  ⟨by decide, by decide, by decide, .of_rank (fun _ => 0) (by decide)⟩

theorem sorted_reg : sortByName [reg] = [reg] := List.mergeSort_of_pairwise (by decide)

theorem recalls {e : Env} {s : Sub} {side : Side} {P : List Constr → World → Prop}
    (hvars : s.vars = [reg]) (harch : e.arch = oneRegister)
    (h : Succeeds (do return [← entryGoal side reg, ← entryGoal side cells]) w P) :
    Succeeds (snapshot side (varsOf e s)) w P := by
  have hone : ([reg] ++ oneRegister.registers).eraseDups = [reg, cells] := by decide
  rw [snapshot_eq, varsOf, hvars, harch, sortByName, List.mergeSort_of_pairwise (by decide), hone,
    List.mapM_cons, List.mapM_cons, List.mapM_nil]
  simpa only [pure_bind, bind_assoc] using h

theorem relates {label : String} {P : Constr → World → Prop}
    (h : Succeeds (do
      let x ← on .orig (Env.mkVar reg)
      let y ← on .mod (Env.mkVar reg)
      mkClause []
        [← equate (label ++ " " ++ reg.name ++ ": " ++ x.toText ++ " = " ++ y.toText) x y]) w P) :
    Succeeds (PairRel.equalVars [reg] label) w P := by
  rw [PairRel.equalVars, sorted_reg, List.mapM_cons, List.mapM_nil]
  simpa only [pure_bind, bind_assoc] using h

theorem doubles_compared :
    Succeeds (subs [equalReg] added shifted) doubles fun _ w' =>
      (w'.env .orig).vars = consts "R0" "mem" ∧ (w'.env .orig).inits = consts "init_R0" "init_mem" ∧
        (w'.env .mod).vars = consts "mod.R0_0" "mod.mem_2" ∧
        (w'.env .mod).inits = consts "mod.init_R0_1" "mod.init_mem_3" := by
  have hadded : sortByName added.vars = [reg] := by
    rw [show added.vars = [reg] by decide, sorted_reg]
  have hshifted : sortByName shifted.vars = [reg] := by
    rw [show shifted.vars = [reg] by decide, sorted_reg]
  -- the values at entry
  refine .step rfl (.bind (recalls (by decide) rfl ?_))
  refine .bind (.step rfl (.step rfl (.now rfl ?_)))
  refine .bind (.step rfl (.step rfl (.now rfl (.now rfl ?_))))
  refine .step rfl (.bind (recalls (by decide) rfl ?_))
  refine .bind (.step rfl (.step rfl (.now rfl ?_)))
  refine .bind (.step rfl (.step rfl (.now rfl (.now rfl ?_))))
  dsimp only [World.setEnv, World.env, Env.addPrecond]
  -- the postcondition and the hypothesis
  rw [List.mapM_cons, List.mapM_nil]
  refine .bind (.bind (relates ?_))
  refine .now rfl (.now rfl (.step rfl ?_))
  rw [List.mapM_cons, List.mapM_nil]
  refine .bind (.bind (relates ?_))
  refine .now rfl (.now rfl (.step rfl ?_))
  -- the second subroutine
  refine .bind (.step rfl ?_)
  dsimp only [World.setEnv, World.env]
  refine .enter (Graph.ofSub_lone rfl rfl) hshifted ?_
  refine .step rfl (.step rfl (.step rfl (.step rfl (.restoring ?_))))
  refine .settle rfl (precond?_empty rfl ..) (.step rfl (.step rfl ?_))
  refine .step rfl (.step rfl (.step rfl (.block (precond?_empty rfl ..) (.now rfl ?_))))
  dsimp only [World.setEnv, World.env, Env.addPrecond]
  -- the first one
  refine .bind (.step rfl ?_)
  refine .enter (Graph.ofSub_lone rfl rfl) hadded ?_
  refine .step rfl (.step rfl (.step rfl (.step rfl (.restoring ?_))))
  refine .settle rfl (precond?_empty rfl ..) (.step rfl (.step rfl ?_))
  refine .step rfl (.step rfl (.step rfl (.block (precond?_empty rfl ..) (.now rfl ?_))))
  exact .now rfl ⟨rfl, rfl, rfl, rfl⟩

theorem apart_of_consts {r c i j r' c' i' j' : String} (ho : (w.env .orig).vars = consts r c)
    (hoi : (w.env .orig).inits = consts i j) (hm : (w.env .mod).vars = consts r' c')
    (hmi : (w.env .mod).inits = consts i' j') (hd : [r, c, i, j, r', c', i', j'].Nodup) :
    Apart w := by
  simp only [List.nodup_cons, List.mem_cons, List.not_mem_nil, or_false, not_or] at hd
  refine ⟨fun h => ?_, fun {v t} side h => ?_, fun {u t v} side side' h => ?_⟩
  · rw [ho] at h
    rw [hm]
    refine consts_apart ?_ h
    grind
  · cases side with
    | orig =>
      rw [hoi] at h
      obtain ⟨n, s, ht, -⟩ := const_of_lookup h
      exact ⟨n, s, ht⟩
    | mod =>
      rw [hmi] at h
      obtain ⟨n, s, ht, -⟩ := const_of_lookup h
      exact ⟨n, s, ht⟩
  · cases side <;> cases side' <;> simp only [ho, hoi, hm, hmi] at h ⊢ <;>
      refine consts_apart ?_ h <;> grind

theorem subs_exact_doubles :
    ∃ c w' post hyp φ ψ χ, subs [equalReg] added shifted doubles = .ok c w' ∧
      Apart w' ∧ Gives equalReg.post equalReg.hyp added shifted post hyp ∧ c.toFormula = .ok φ ∧
      post.toFormula = .ok ψ ∧ hyp.toFormula = .ok χ ∧
      ((∀ m, φ.holds m) ↔ ∀ m, χ.holds m →
        m.Recalls (w'.env .orig).vars (w'.env .orig).inits (varsOf (doubles.env .orig) added) →
        m.Recalls (w'.env .mod).vars (w'.env .mod).inits (varsOf (doubles.env .mod) shifted) →
        ∃ σ σ', added.Ends [added] (w'.state .orig m) σ ∧
          shifted.Ends [shifted] (w'.state .mod m) σ' ∧
          ψ.holds (w'.after .mod (w'.after .orig m σ) σ')) := by
  obtain ⟨c, w', h, ho, hoi, hm, hmi⟩ := doubles_compared
  have ha : Apart w' := apart_of_consts ho hoi hm hmi (by decide)
  have hd (side : Side) : Default side doubles := by cases side <;> exact .fresh rfl rfl rfl
  have hreads : equalReg.Reads fun _ => False := Comparator.reads_registers ..
  obtain ⟨post, hyp, φ, ψ, χ, hgives, hφ, hψ, hχ, -, hexact⟩ := subs_exact straight_added
    straight_shifted hd (.fresh rfl) (.fresh rfl) .empty hreads.post hreads.hyp h ha
  exact ⟨c, w', post, hyp, φ, ψ, χ, h, ha, hgives, hφ, hψ, hχ, hexact⟩

end Precond.Compare
