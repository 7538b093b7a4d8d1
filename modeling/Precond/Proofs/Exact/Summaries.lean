import Precond.Proofs.Constraint.Meaning
import Precond.Proofs.Walk.Effects

/-! Summaries of calls as updates. Behind a summarized call each output has the value of a function,
named for callee and output, of the values that the inputs have before it; the callee has been called, the
stack pointer may have moved, and nothing else has changed (`Env.Updated`). The precondition of the call
says of a model what its postcondition says of the updated model (`Walk.summarize_updates`). -/

namespace Precond

open IR

/-! ### Values of functions -/

/-- The value of a function for arguments of its sorts. -/
def Fn.value? {ran : TSort} : (dom : List TSort) → Fn dom ran → List Value → Option Value
  | [], x, [] => some ⟨ran, x⟩
  | s :: dom, f, v :: vs => if h : v.1 = s then value? dom (f (h ▸ v.2)) vs else none
  | _, _, _ => none

/-- What a declared function gives in a model; one without arguments is a constant. -/
def FuncDecl.value? (f : FuncDecl) (m : Model) (vs : List Value) : Option Value :=
  match f.dom, vs with
  | [], [] => some ⟨f.ran, m.const f.name f.ran⟩
  | _, _ => Fn.value? f.dom (m.func f.name f.dom f.ran) vs

theorem Spine.value?_applyTo {m : Model} {ran : TSort} {args : List SomeTerm} {dom : List TSort}
    {f : Spine dom ran} {t : Term ran} (h : f.applyTo args = .ok t) :
    Fn.value? dom (f.eval m) (args.map (·.value m)) = some ⟨ran, t.eval m⟩ := by
  induction args generalizing dom with
  | nil =>
    cases dom with
    | nil =>
      cases h
      rfl
    | cons => cases h
  | cons x args ih =>
    cases dom with
    | nil => cases h
    | cons s dom =>
      obtain ⟨y, hy, hrest⟩ := bind_eq_ok h
      obtain rfl := SomeTerm.as_eq_ok hy
      exact (dif_pos rfl).trans (ih (f := f.app y) hrest)

theorem FuncDecl.value?_apply {f : FuncDecl} {args : List SomeTerm} {t : SomeTerm}
    (h : f.apply args = .ok t) (m : Model) : f.value? m (args.map (·.value m)) = some (t.value m) := by
  unfold FuncDecl.apply at h
  unfold FuncDecl.value?
  split at h
  · rename_i hdom
    rw [hdom]
    cases h
    rfl
  · rename_i hsome
    obtain ⟨x, hx, h⟩ := bind_eq_ok h
    cases h
    have hvalue := Spine.value?_applyTo (m := m) hx
    split
    · rename_i hdom hargs
      exact absurd (List.map_eq_nil_iff.mp hargs) (hsome hdom)
    · exact hvalue

theorem FuncDecl.apply_sort {f : FuncDecl} {args : List SomeTerm} {t : SomeTerm}
    (h : f.apply args = .ok t) : t.1 = f.ran := by
  unfold FuncDecl.apply at h
  split at h
  · cases h
    rfl
  · obtain ⟨x, -, h⟩ := bind_eq_ok h
    cases h
    rfl

theorem value_added {w : Nat} (x : Term (.bv w)) (k : Nat) (m : Model) :
    SomeTerm.value m ⟨.bv w, .bin .add x (.numeral w (k : Nat))⟩ = .word (x.bits m + BitVec.ofNat w k) := by
  have hbits : (Term.bin .add x (.numeral w (k : Nat))).bits m = x.bits m + BitVec.ofNat w k := by
    rw [Spine.bits_bin, Spine.bits_numeral, BitVec.ofInt_natCast]
    rfl
  exact congrArg Value.word hbits

/-! ### States behind a call -/

namespace Env

/-- The model behind a return: the callee has been called, the stack pointer is above the return address
if it is not among what else has changed, and everything else is as it was. -/
structure Returned (e : Env) (callee : Sub) (changed : List Var) (m m' : Model) : Prop where
  func : m'.func = m.func
  called : ∃ p, e.called.lookup (e.canonical callee.name) = some p ∧ p.holds m' = true
  popped : e.arch.popsReturnAddr = true → e.arch.sp ∉ changed →
    ∃ (w : Nat) (x : BitVec w), m.store e.vars e.arch.sp = .word x ∧
      m'.store e.vars e.arch.sp = .word (x + BitVec.ofNat w (e.arch.addrSize / 8))
  other {n : String} {s : TSort} :
    (∀ v, v ∈ changed ∨ e.arch.popsReturnAddr = true ∧ v = e.arch.sp →
      e.vars.lookup v ≠ some ⟨s, .const n s⟩) →
    (∀ p, e.called.lookup (e.canonical callee.name) = some p → (⟨.bool, p⟩ : SomeTerm) ≠ ⟨s, .const n s⟩) →
    m'.const n s = m.const n s

/-- The model behind a call that is summarized: outputs have the values of functions of the inputs. -/
structure Updated (e : Env) (rule : CallRule) (callee : Sub) (m m' : Model) : Prop
    extends e.Returned callee (e.interface rule callee).2 m m' where
  outputs : e.Summarizes callee rule out f →
    f.value? m ((e.interface rule callee).1.map (m.store e.vars)) = some (m'.store e.vars out)

variable {e : Env} {callee : Sub} {values : List (Var × SomeTerm)} {pairs : List (SomeTerm × SomeTerm)}
  {m m' : Model}

/-- Variables that get a value get one of their sorts, and only one. -/
structure Valued (values : List (Var × SomeTerm)) : Prop where
  sort : c ∈ values → c.1.type.sort = .ok c.2.1
  unique : c ∈ values → d ∈ values → c.1 = d.1 → c = d

theorem Valued.nil : Valued [] := ⟨nofun, nofun⟩

namespace Replaces

/-- A truth value that is replaced is the flag of the callee, and what else is replaced belongs to a
variable. -/
theorem cases (h : e.Replaces callee values pairs) (ht : e.Tidy) {p : SomeTerm × SomeTerm} (hp : p ∈ pairs) :
    (p.1.1 = .bool ∧ e.Marks callee p) ∨
      (p.1.1 ≠ .bool ∧ ∃ v, e.vars.lookup v = some p.1 ∧ ((v, p.2) ∈ values ∨
        e.arch.popsReturnAddr = true ∧ v = e.arch.sp ∧ (∀ c ∈ values, c.1 ≠ v) ∧ e.Pops p)) := by
  rcases h.only hp with hmark | ⟨⟨v, x⟩, hc, hl, rfl⟩ | ⟨hpops, hnot, hpop⟩
  · refine .inl ⟨?_, hmark⟩
    cases hmark
    rfl
  · obtain ⟨n, s, hold, hs, -⟩ := ht.vars hl
    refine .inr ⟨?_, v, hl, .inl hc⟩
    rw [hold]
    exact Ty.sort_ne_bool hs
  · refine .inr ⟨hpop.ne_bool, e.arch.sp, ?_, .inr ⟨hpops, rfl, hnot, hpop⟩⟩
    cases hpop
    assumption

theorem const (h : e.Replaces callee values pairs) (ht : e.Tidy) (hv : Valued values)
    {p : SomeTerm × SomeTerm} (hp : p ∈ pairs) : ∃ n s x, p = (⟨s, .const n s⟩, ⟨s, x⟩) := by
  rcases h.cases ht hp with ⟨-, hmark⟩ | ⟨-, v, hl, hc | ⟨-, -, -, hpop⟩⟩
  · cases hmark with
    | flag hl =>
      obtain ⟨n, rfl, -⟩ := ht.called hl
      exact ⟨n, _, _, rfl⟩
  · obtain ⟨n, s, hold, hs, -⟩ := ht.vars hl
    have hsort := Except.ok.inj (hs.symm.trans (hv.sort hc))
    obtain ⟨old, s', x⟩ := p
    cases hold
    obtain rfl : s = s' := hsort
    exact ⟨n, s, x, rfl⟩
  · obtain ⟨n, s, hold, -, -⟩ := ht.vars hl
    cases hpop
    cases hold
    exact ⟨n, _, _, rfl⟩

/-- No term is replaced twice. -/
theorem coherent (h : e.Replaces callee values pairs) (ht : e.Tidy) (hv : Valued values) :
    Coherent pairs where
  const hp := h.const ht hv hp
  unique {p q} hp hq hpq := by
    obtain ⟨old, new⟩ := p
    obtain ⟨old', new'⟩ := q
    obtain rfl : old = old' := hpq
    rcases h.cases ht hp with ⟨hb, hmark⟩ | ⟨hb, v, hl, hnew⟩
    · obtain ⟨-, hmark'⟩ := (h.cases ht hq).resolve_right fun hq' => hq'.1 hb
      cases hmark
      cases hmark'
      rfl
    · obtain ⟨-, v', hl', hnew'⟩ := (h.cases ht hq).resolve_left fun hq' => hb hq'.1
      obtain rfl := ht.named.inj hl hl'
      rcases hnew with hc | ⟨-, -, hnot, hpop⟩
      · rcases hnew' with hc' | ⟨-, -, hnot, -⟩
        · cases hv.unique hc hc' rfl
          rfl
        · exact absurd rfl (hnot _ hc)
      · rcases hnew' with hc' | ⟨-, -, -, hpop'⟩
        · exact absurd rfl (hnot _ hc')
        · cases hpop
          cases hpop'
          rfl

/-- The pairs of a call give variables their values, and nothing else than a return does. -/
theorem returned (h : e.Replaces callee values pairs) (ht : e.Tidy) (hv : Valued values)
    (ha : m.Assigned pairs m') : e.Returned callee (values.map (·.1)) m m' ∧
      ∀ c ∈ values, m'.store e.vars c.1 = c.2.value m := by
  have hnew {p : SomeTerm × SomeTerm} (hp : p ∈ pairs) : p.1.value m' = p.2.value m := by
    obtain ⟨n, s, x, rfl⟩ := h.const ht hv hp
    exact congrArg (Sigma.mk s) (ha.new hp)
  refine ⟨⟨ha.func, ?_, fun hpops hnot => ?_, fun {n s} hvars hflag => ha.other fun p hp => ?_⟩,
    fun c hc => ?_⟩
  · obtain ⟨p, hp, hmark⟩ := h.marks
    cases hmark with
    | flag hl => exact ⟨_, hl, eq_of_heq (Sigma.mk.inj (hnew hp)).2⟩
  · obtain ⟨p, hp, hpop⟩ := h.pops hpops fun c hc he => hnot (he ▸ List.mem_map_of_mem hc)
    cases hpop with
    | @sp w x hs hl =>
      refine ⟨w, x.bits m, Model.store_of_lookup hl m, ?_⟩
      rw [Model.store_of_lookup hl, hnew hp]
      exact value_added x _ m
  · rcases h.cases ht hp with ⟨-, hmark⟩ | ⟨-, v, hl, hc | ⟨hpops, rfl, -, -⟩⟩
    · cases hmark with
      | flag hl => exact hflag _ hl
    · exact fun he => hvars v (.inl (List.mem_map_of_mem hc)) (he ▸ hl)
    · exact fun he => hvars _ (.inr ⟨hpops, rfl⟩) (he ▸ hl)
  · obtain ⟨old, hl, hp⟩ := h.gives hc
    rw [Model.store_of_lookup hl]
    exact hnew hp

/-- A model behind a return in which variables have their values is what the pairs of the call make. -/
theorem assigned (h : e.Replaces callee values pairs) (ht : e.Tidy)
    (hr : e.Returned callee (values.map (·.1)) m m')
    (hvalues : ∀ c ∈ values, m'.store e.vars c.1 = c.2.value m) : m.Assigned pairs m' := by
  have hgiven {v : Var} {n : String} {s : TSort} (hmem : v ∈ values.map (·.1))
      (hl : e.vars.lookup v = some ⟨s, .const n s⟩) : ∃ x, (⟨s, .const n s⟩, x) ∈ pairs := by
    obtain ⟨c, hc, rfl⟩ := List.mem_map.mp hmem
    obtain ⟨old, hl', hp⟩ := h.gives hc
    cases hl.symm.trans hl'
    exact ⟨_, hp⟩
  refine ⟨hr.func, fun {n s x} hp => ?_, fun {n s} hn => hr.other (fun v hvar hl => ?_) fun p hl hp => ?_⟩
  · rcases h.cases ht hp with ⟨-, hmark⟩ | ⟨-, v, hl, hc | ⟨hpops, rfl, hnot, hpop⟩⟩
    · obtain ⟨p, hl', hholds⟩ := hr.called
      cases hmark with
      | flag hl =>
        cases hl.symm.trans hl'
        exact hholds
    · have hvalue := hvalues _ hc
      rw [Model.store_of_lookup hl] at hvalue
      exact eq_of_heq (Sigma.mk.inj hvalue).2
    · obtain ⟨w, y, hbefore, hafter⟩ := hr.popped hpops fun hmem => by
        obtain ⟨c, hc, he⟩ := List.mem_map.mp hmem
        exact hnot c hc he
      rw [Model.store_of_lookup hl] at hbefore hafter
      cases hpop with
      | sp hs =>
        obtain ⟨hw, hy⟩ := Sigma.mk.inj hbefore
        cases hw
        obtain rfl := eq_of_heq hy
        exact eq_of_heq (Sigma.mk.inj (hafter.trans (value_added _ _ m).symm)).2
  · by_cases hmem : v ∈ values.map (·.1)
    · obtain ⟨x, hp⟩ := hgiven hmem hl
      exact hn _ hp rfl
    · obtain ⟨hpops, rfl⟩ := hvar.resolve_left hmem
      obtain ⟨p, hp, hpop⟩ := h.pops hpops fun c hc he => hmem (he ▸ List.mem_map_of_mem hc)
      cases hpop with
      | sp hs hl' =>
        cases hl.symm.trans hl'
        exact hn _ hp rfl
  · obtain ⟨q, hq, hmark⟩ := h.marks
    cases hmark with
    | flag hl' =>
      cases hl.symm.trans hl'
      exact hn _ hq hp

end Replaces

/-! ### Summaries -/

variable {rule : CallRule} {out : Var} {f g : FuncDecl} {e' : Env}

theorem Summarizes.unique (hf : e.Summarizes callee rule out f) (hg : e.Summarizes callee rule out g) :
    f = g := by
  obtain ⟨name, dom, ran⟩ := f
  obtain ⟨name', dom', ran'⟩ := g
  cases hf.name.trans hg.name.symm
  cases Except.ok.inj (hf.dom.symm.trans hg.dom)
  cases Except.ok.inj (hf.ran.symm.trans hg.ran)
  rfl

/-- The outputs of a summary get values of their sorts. -/
theorem Sums.valued {args news : List SomeTerm} (hs : e.Summarizable rule callee)
    (h : List.Forall₂ (e.Results rule callee args) (e.interface rule callee).2 news) :
    Valued ((e.interface rule callee).2.zip news) where
  sort {c} hc := by
    obtain ⟨f, -, hf, happly⟩ := List.forall₂_zip h hc
    rw [(hf hs).ran, FuncDecl.apply_sort happly]
  unique {c d} hc hd hcd := by
    obtain ⟨f, -, hf, happly⟩ := List.forall₂_zip h hc
    obtain ⟨g, -, hg, happly'⟩ := List.forall₂_zip h hd
    obtain rfl : f = g := (hf hs).unique (hcd ▸ hg hs)
    exact Prod.ext hcd (Except.ok.inj (happly.symm.trans happly'))

theorem values_of_lookups {V : Table Var SomeTerm} {vs : List Var} {args : List SomeTerm}
    (h : List.Forall₂ (fun v t => V.lookup v = some t) vs args) (m : Model) :
    vs.map (m.store V) = args.map (·.value m) := by
  induction h with
  | nil => rfl
  | cons hl _ ih => rw [List.map_cons, List.map_cons, ih, Model.store_of_lookup hl]

/-- The pairs of a summary make the model behind the call. -/
theorem Sums.assigned_iff (h : e.Sums rule callee e' pairs) (hs : e.Summarizable rule callee)
    (ht : e'.Tidy) (hp : e'.policy = e.policy) :
    Coherent pairs ∧ ∀ m m', m.Assigned pairs m' ↔ e'.Updated rule callee m m' := by
  obtain ⟨args, news, hargs, hnews, hreplaces⟩ := h
  have hinterface : e'.interface rule callee = e.interface rule callee := by
    have hi := congrArg (fun e : Env => e.interface rule callee) hp
    exact hi
  have hsame {out : Var} {f : FuncDecl} :
      e'.Summarizes callee rule out f ↔ e.Summarizes callee rule out f := by
    have hcanonical : e'.canonical callee.name = e.canonical callee.name := by
      have hr := congrArg Env.renames hp
      exact congrArg (fun t : Table String String => (t.lookup callee.name).getD callee.name) hr
    constructor
    · exact fun hf => ⟨hinterface ▸ hf.output, hcanonical ▸ hf.name, hinterface ▸ hf.dom, hf.ran⟩
    · exact fun hf => ⟨hinterface ▸ hf.output, hcanonical ▸ hf.name, hinterface ▸ hf.dom, hf.ran⟩
  have hv := Sums.valued hs hnews
  have houts : ((e.interface rule callee).2.zip news).map (·.1) = (e.interface rule callee).2 :=
    List.map_fst_zip hnews.length_eq.le
  refine ⟨hreplaces.coherent ht hv, fun m m' => ⟨fun ha => ?_, fun hu => ?_⟩⟩
  · obtain ⟨hr, hvalues⟩ := hreplaces.returned ht hv ha
    rw [houts, ← hinterface] at hr
    refine ⟨hr, fun {out f} hf => ?_⟩
    have hout := (hsame.mp hf).output
    rw [← houts] at hout
    obtain ⟨c, hc, rfl⟩ := List.mem_map.mp hout
    obtain ⟨g, -, hg, happly⟩ := List.forall₂_zip hnews hc
    obtain rfl := (hsame.mp hf).unique (hg hs)
    rw [hinterface, values_of_lookups hargs, FuncDecl.value?_apply happly, hvalues c hc]
  · have hr := hu.toReturned
    rw [hinterface, ← houts] at hr
    refine hreplaces.assigned ht hr fun c hc => ?_
    obtain ⟨f, -, hf, happly⟩ := List.forall₂_zip hnews hc
    have hout := hu.outputs (hsame.mpr (hf hs))
    rw [hinterface, values_of_lookups hargs, FuncDecl.value?_apply happly] at hout
    exact (Option.some.inj hout).symm

end Env

namespace Walk

variable {side : Side} {w : World} {rule : CallRule} {callee : Sub} {post : Constr} {t : Term .bool}

/-- What summaries take for granted holds of the supported architectures. -/
theorem summarizable {e : Env} (harch : e.arch ∈ Arch.all) (hr : rule ∈ summarizing)
    (hargs : ∀ a ∈ callee.args, a.var.sorted) (hu : e.Unambiguous rule callee) :
    e.Summarizable rule callee where
  toUnambiguous := hu
  sp := ⟨_, (Arch.regular _ harch).sp_sort⟩
  returns := (Arch.regular _ harch).returns
  sorted {v} hv := by
    have hreg := (Arch.regular _ harch).sorted v
    have hinput (hv : v ∈ e.inputRegs) : v.sorted := by
      refine hreg ?_
      unfold Env.inputRegs at hv
      split at hv <;> simp [conventional, hv]
    simp only [summarizing, List.mem_cons, List.not_mem_nil, or_false] at hr
    rcases hr with rfl | rfl | rfl | rfl | rfl
    all_goals rcases List.mem_append.mp hv with hv | hv
    · exact Tame.withIntents_sorted hargs _ v hv
    · exact Tame.withIntents_sorted hargs _ v hv
    · exact hinput hv
    · exact hreg (by simp [conventional, Option.mem_toList.mp hv])
    · exact hinput hv
    · exact hreg (by simp [conventional, Option.mem_toList.mp hv])
    · exact hinput hv
    · exact hreg (by simp [conventional, show v ∈ e.arch.callerSaved from hv])
    · cases hv
    · cases hv

/-- The precondition of a call that is summarized by its outputs is true in a model if and only if its
postcondition is true in the model behind the call, of which there is one. -/
theorem summarize_updates (harch : (w.env side).arch ∈ Arch.all) (ht : (w.env side).Tidy)
    (hr : rule ∈ summarizing) (hargs : ∀ a ∈ callee.args, a.var.sorted)
    (hu : (w.env side).Unambiguous rule callee) (hpost : post.Fresh w.nodes)
    (hformula : post.toFormula = .ok t) (tid : String) :
    ∃ pre w' t', summarize side rule callee post tid w = .ok pre w' ∧ pre.toFormula = .ok t' ∧
      ∀ m, ∃ m', (∀ m₁, (w'.env side).Updated rule callee m m₁ ↔ m₁ = m') ∧ t'.holds m = t.holds m' := by
  have hs := summarizable harch hr hargs hu
  obtain ⟨pre, w', hok, w₁, pairs, hw₁, hsums, rfl, hw'⟩ := (summarize_fetches rfl ht hr
    post tid).succeeds fun _ hf => hf hs
  obtain ⟨hcoherent, hassigned⟩ := hsums.assigned_iff hs (hw₁.gives.tidy ht) hw₁.before.policy
  have hledger := hpost.ledger hformula
  obtain ⟨hformal, htruth⟩ := hcoherent.subst (hledger.formal .refl) w.nodes
  have hnew := hledger.add rfl hformal fun d hd => List.mem_singleton.mp hd ▸ .refl
  obtain ⟨t', ht', hholds⟩ := hnew.formula (.inr rfl)
  refine ⟨_, _, t', hok, ht', fun m => ⟨m.update (Constr.swaps pairs), fun m₁ => ?_, ?_⟩⟩
  · rw [hw'.env, ← hassigned]
    exact ⟨hcoherent.eq_update, fun h => h ▸ hcoherent.assigned_update m⟩
  · rw [hholds, htruth, hpost.truth hformula]

/-! A callee that is given the stack pointer and the memory and changes both, in a walk from a goal about
the memory. -/

def spilling : Sub where
  name := "spill"
  tid := "@spill"
  addr := none
  args := [⟨⟨"RDI", .word 64⟩, .input⟩, ⟨⟨"RSP", .word 64⟩, .both⟩, ⟨⟨"mem", .memory 64 8⟩, .both⟩]
  blks := []

def behindSpill : World :=
  { World.start (Env.start Arch.x8664 [spilling]) (Env.start Arch.x8664 [spilling]) with nodes := 1 }

def spilled : Term .bool :=
  .eq (.select (.const "mem" (.mem 64 8)) (.const "RSP" (.bv 64))) (.numeral 8 0)

theorem spilling_unambiguous : (behindSpill.env .orig).Unambiguous .argTerms spilling where
  declared _ h := nomatch h
  outputs {out out'} hout hout' hname := by
    have houtputs : ((behindSpill.env .orig).interface .argTerms spilling).2 =
        [⟨"RSP", .word 64⟩, ⟨"mem", .memory 64 8⟩] := rfl
    simp only [houtputs, List.mem_cons, List.not_mem_nil, or_false] at hout hout'
    rcases hout with rfl | rfl <;> rcases hout' with rfl | rfl
    · rfl
    · exact absurd hname (by decide)
    · exact absurd hname (by decide)
    · rfl

theorem summarize_updates_spilling : ∃ pre w' t',
    summarize .orig .argTerms spilling (.goal 0 "spilled" spilled none) "%call" behindSpill =
      .ok pre w' ∧ pre.toFormula = .ok t' ∧
    ∀ m, ∃ m', (∀ m₁, (w'.env .orig).Updated .argTerms spilling m m₁ ↔ m₁ = m') ∧
      t'.holds m = spilled.holds m' :=
  summarize_updates (show (behindSpill.env .orig).arch ∈ Arch.all by decide) (.start ..) (by decide)
    (by decide) spilling_unambiguous (.goal Nat.zero_lt_one ..) (Constr.toFormula_goal ..) "%call"

end Walk

end Precond
