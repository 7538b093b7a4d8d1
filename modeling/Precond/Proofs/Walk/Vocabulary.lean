import Precond.Proofs.Env.Kept
import Precond.Proofs.Flow.Graph
import Precond.Walk.Sub

/-! The names that a walk asks an environment for. A vocabulary covers a program if it has its
variables, the functions that it calls and the names that its rules make constants of; under a
vocabulary that governs the environment a walk asks for no other names. -/

namespace Precond.Walk

open IR Precond.Flow

/-- The registers that the conventions of an architecture name. -/
def conventional (a : Arch) : List Var :=
  a.registers ++ a.gprs ++ a.inputRegs ++ a.callerSaved ++ a.returnReg.toList ++ [a.sp, a.mem]

/-- Names that may be asked for: variables, functions that are called, names that new constants are
numbered for, and functions with their sorts that summaries are made of. -/
structure Vocabulary where
  var : Var → Prop
  callee : String → Prop
  numbered : String → Prop
  result : String → TSort → Prop

namespace Vocabulary

/-- All names. -/
def any : Vocabulary := ⟨fun _ => True, fun _ => True, fun _ => True, fun _ _ => True⟩

variable (V : Vocabulary)

structure CoversBlk (b : Blk) : Prop where
  vars : ∀ v ∈ b.vars, V.var v
  calls : ∀ j ∈ b.jumps, ∀ tid ret, j.kind = .call (.direct tid) ret →
    V.callee (unknownCallee tid).name

structure Covers (s : Sub) : Prop where
  name : V.callee s.name
  vars : ∀ v ∈ s.vars, V.var v
  blks : ∀ b ∈ s.blks, V.CoversBlk b

def CoversGraph (g : Graph) : Prop := ∀ t b, g.blocks.lookup t = some b → V.CoversBlk b

/-- The names that a rule makes new constants of for calls of a function. -/
def Serves (callee : String) : CallRule → Prop
  | .contract name _ _ => ∀ r, V.var r → V.numbered (name ++ "_" ++ r.name)
  | .verifierNondet => V.numbered (callee ++ "_ret")
  | _ => True

/-- All that an environment refers to is covered. -/
structure Governs (e : Env) : Prop where
  arch : ∀ v ∈ conventional e.arch, V.var v
  subs : ∀ s ∈ e.subs, V.Covers s
  chosen : V.Covers s → e.chosen? s = some rule → V.Serves s.name rule
  fallback : V.Covers s → e.fallback = some rule → V.Serves s.name rule
  handlers : e.handlers.lookup tid = some h → V.Covers h.callee ∧ V.Serves h.callee.name h.rule
  unknown : V.numbered "unknown"
  results : V.callee f → V.var out → out.type.sort = .ok ran →
    V.result (e.canonical f ++ "_" ++ out.name) ran
  graph : e.frame.graph = some g → V.CoversGraph g

variable {V} {s : Sub} {e : Env}

theorem CoversBlk.any (b : Blk) : Vocabulary.any.CoversBlk b :=
  ⟨fun _ _ => True.intro, fun _ _ _ _ _ => True.intro⟩

theorem Covers.any (s : Sub) : Vocabulary.any.Covers s :=
  ⟨True.intro, fun _ _ => True.intro, fun b _ => .any b⟩

theorem Serves.any (callee : String) : ∀ rule, Vocabulary.any.Serves callee rule
  | .contract .. => fun _ _ => True.intro
  | .verifierNondet | .inline _ | .verifierError | .verifierAssume | .empty | .argTerms | .raxOut
  | .chaosRax | .chaosCallerSaved | .default => True.intro

theorem Governs.any (e : Env) : Vocabulary.any.Governs e where
  arch _ _ := True.intro
  subs s _ := .any s
  chosen _ _ := .any ..
  fallback _ _ := .any ..
  handlers _ := ⟨.any _, .any ..⟩
  unknown := True.intro
  results _ _ _ := True.intro
  graph _ _ _ _ := .any _

/-- A subroutine that is not part of the program. -/
theorem Covers.unknownCallee {tid : String} (h : V.callee (Walk.unknownCallee tid).name) :
    V.Covers (Walk.unknownCallee tid) := ⟨h, nofun, nofun⟩

theorem Covers.graph (h : V.Covers s) {g : Graph} (hg : Graph.ofSub s = .ok g) : V.CoversGraph g := by
  intro t b hb
  rw [(Graph.of_ofSub hg).blocks, Option.map_eq_some_iff] at hb
  obtain ⟨p, hp, rfl⟩ := hb
  exact h.blks _ (Sub.mem_of_at? hp).1

theorem CoversBlk.elt {b : Blk} (h : V.CoversBlk b) {elt : Elt} (he : elt ∈ b.elts) :
    ∀ v ∈ elt.vars, V.var v := fun v hv => h.vars v (List.mem_flatMap.mpr ⟨elt, he, hv⟩)

theorem Governs.inputRegs (h : V.Governs e) : ∀ v ∈ e.inputRegs, V.var v := by
  intro v hv
  refine h.arch v ?_
  unfold Env.inputRegs at hv
  unfold conventional
  split at hv <;> simp [hv]

/-- Nothing but what the walk is at and what it has noted is different. -/
theorem Governs.of_eq {e' : Env} (h : V.Governs e) (ha : e'.arch = e.arch) (hs : e'.subs = e.subs)
    (hr : e'.rules = e.rules) (hf : e'.fallback = e.fallback) (hn : e'.renames = e.renames)
    (hh : ∀ t h, e'.handlers.lookup t = some h → e.handlers.lookup t = some h)
    (hg : ∀ g, e'.frame.graph = some g → V.CoversGraph g) : V.Governs e' where
  arch := by rw [ha]; exact h.arch
  subs := by rw [hs]; exact h.subs
  chosen hc hr' := by
    rw [Env.chosen?, hr, ha, hf] at hr'
    exact h.chosen hc hr'
  fallback hc hr' := h.fallback hc (hf ▸ hr')
  handlers hh' := h.handlers (hh _ _ hh')
  unknown := h.unknown
  results hc hv hs := by
    rw [Env.canonical, hn]
    exact h.results hc hv hs
  graph := hg _

/-- The rule for calls of a subroutine, and the subroutine that it was chosen for. -/
theorem Governs.handler (h : V.Governs e) (hc : V.Covers s) {hd : Handler} {e' : Env}
    (hh : Env.handler s e = .ok hd e') : V.Covers hd.callee ∧ V.Serves hd.callee.name hd.rule := by
  cases hl : e.handlers.lookup s.tid with
  | some hd' =>
    rw [Env.handler_of_lookup hl] at hh
    cases hh
    exact h.handlers hl
  | none =>
    rw [Env.handler_of_none hl] at hh
    cases hr : e.chosen? s with
    | none =>
      rw [hr] at hh
      cases hh
    | some r =>
      rw [hr] at hh
      cases hh
      exact ⟨hc, h.chosen hc hr⟩

/-- What a rule has been chosen for is kept. -/
theorem Governs.handled (h : V.Governs e) (hc : V.Covers s) :
    V.Governs (ending (Env.handler s) e) := by
  cases hl : e.handlers.lookup s.tid with
  | some hd =>
    rw [ending, Env.handler_of_lookup hl]
    exact h
  | none =>
    rw [ending, Env.handler_of_none hl]
    cases hr : e.chosen? s with
    | none => exact h
    | some r =>
      refine { h with handlers := fun {t hd} hd' => ?_ }
      by_cases ht : t = s.tid
      · subst ht
        cases (Table.lookup_put_self ..).symm.trans hd'
        exact ⟨hc, h.chosen hc hr⟩
      · exact h.handlers ((Table.lookup_put_of_ne _ _ ht).symm.trans hd')

end Vocabulary

end Precond.Walk
