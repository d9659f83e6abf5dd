/-
Problems that load.

Loading a problem reduces the types that are inferred for its terms.  If no `fun`
is written in a problem, no term has a function in it, and loading ends, with a
proof state or an error.  With functions it need not: hypotheses are not checked, so
one may be a function applied to itself, which reduces to itself for ever once
something is asked of its type.

* `Surface.Term.funFree` — texts without `fun`;
* `elaborate_ends` — elaboration of such terms ends;
* `Problem.toState_settles` — such problems load;
* `Problem.toState_of_applied_to_itself` — a problem that never loads.
-/
import Mathlib.Data.List.Induction
import Pinpoint.Problem
import Pinpoint.Proofs.Catalogues
import Pinpoint.Proofs.Elaborated
import Pinpoint.Proofs.FunctionFree
import Pinpoint.Proofs.Prelude

namespace Pinpoint

/-! ### Texts without functions -/

namespace Surface

mutual

/-- Whether no function is written in a term. -/
def Term.funFree : Term → Bool
  | .app _ head args => head.funFree && args.funFree
  | .lam .. => false
  | .pi _ binders body => binders.funFree && body.funFree
  | .arrow _ dom cod => dom.funFree && cod.funFree
  | .binary _ _ lhs rhs => lhs.funFree && rhs.funFree
  | .paren _ e => e.funFree
  | _ => true

def Args.funFree : Args → Bool
  | .one a => a.funFree
  | .cons a rest => a.funFree && rest.funFree

def Binders.funFree : Binders → Bool
  | .one _ type => type.funFree
  | .cons _ type rest => type.funFree && rest.funFree

end

end Surface

/-! ### Elaboration -/

namespace Elaboration

open Environment Pinpoint.Expr

variable {env : Environment} {Γ : LocalContext} {s : UInt64} {e : Expr}

/-- What is asked of a checker of its own. -/
theorem ofCheck_ends {α : Type} {m : Nat → CheckM α} {Q : α → Prop}
    (h : Ends m Checker.firstFresh Q) : Ends (fun n => ofCheck (m n)) s Q := by
  refine Ends.bind (Ends.lift h.run') fun r t hr => ?_
  cases r with
  | error err => exact .throw _
  | ok a => exact .pure (hr a rfl)

section
variable (henv : env.FunFree) (hΓ : Γ.FunFree)
include henv hΓ

theorem inferType_ends (he : e.funFree) :
    Ends (fun n => inferType env n Γ e) s fun T => T.funFree :=
  ofCheck_ends (Environment.inferType_ends henv hΓ he)

theorem sortLevel_ends (he : e.funFree) :
    Ends (fun n => sortLevel env n Γ e) s fun _ => True :=
  ofCheck_ends (ensureSort_ends henv hΓ he)

theorem solveLevels_ends (params : List Name) (type : Expr) {args : List Expr}
    (hargs : ∀ a ∈ args, a.funFree) (solved : List (Option Level)) :
    Ends (fun n => solveLevels env n Γ params type args solved) s fun _ => True := by
  induction args generalizing type solved s with
  | nil =>
    simp only [solveLevels_nil]
    exact .pure trivial
  | cons a args ih =>
    obtain ⟨ha, hargs⟩ := List.forall_mem_cons.mp hargs
    rcases solveLevels_cons params type solved with
      ⟨body, hstep⟩ | ⟨body, next, hstep⟩ | hstep
    · simp only [hstep]
      exact ih body hargs solved
    · simp only [hstep]
      exact Ends.bind (sortLevel_ends henv hΓ ha) fun l _ _ => ih body hargs (next l)
    · simp only [hstep]
      exact .pure trivial

theorem resolve_ends (name : String) {args : List Expr} (hargs : ∀ a ∈ args, a.funFree) :
    Ends (fun n => resolve env n Γ name args) s fun e => e.funFree := by
  unfold resolve
  split
  · exact .pure rfl
  · dsimp only
    split
    · exact .throw _
    · rename_i c hc
      exact Ends.bind (solveLevels_ends henv hΓ _ _ hargs _) fun _ _ _ => .pure rfl

theorem operation_ends (op : Operator) {lhs rhs : Expr} (hl : lhs.funFree) (hr : rhs.funFree) :
    Ends (fun n => operation env n Γ op lhs rhs) s fun e => e.funFree := by
  unfold operation
  split
  · exact .pure (funFree_app.mpr ⟨funFree_app.mpr ⟨rfl, hl⟩, hr⟩)
  · split
    · refine Ends.bind (inferType_ends henv hΓ hl) fun type _ htype => ?_
      refine Ends.bind (sortLevel_ends henv hΓ htype) fun level _ _ => .pure ?_
      exact funFree_mkApp rfl (by simp [htype, hl, hr])
    · exact .throw _

/-- A quantifier is opened, and closed again. -/
theorem openBinder_ends (name : String) {type : Expr} (htype : type.funFree)
    {inside : Nat → LocalContext → ElabM Expr}
    (hinside : ∀ Γ t, Γ.FunFree → Ends (fun n => inside n Γ) t fun e => e.funFree) :
    Ends (fun n => openBinder env n .pi Γ name type (inside n)) s fun e => e.funFree := by
  refine Ends.bind (sortLevel_ends henv hΓ htype) fun _ _ _ => Ends.bind .fresh fun x t _ => ?_
  refine Ends.bind (hinside _ t (hΓ.push htype _ _)) fun body _ hbody => .pure ?_
  exact funFree_pi.mpr ⟨htype, funFree_abstractFVar hbody⟩

end

mutual

/-- The elaboration of a term without functions ends, with one without functions. -/
theorem elaborate_ends {Γ : LocalContext} {s : UInt64} (henv : env.FunFree) (hΓ : Γ.FunFree) :
    ∀ t : Surface.Term, t.funFree → Ends (fun n => elaborate env n Γ t) s fun e => e.funFree
  | .ident _ name, _ => resolve_ends henv hΓ name nofun
  | .prop _, _ | .type _, _ | .nat _ _, _ | .str _ _, _ => .pure rfl
  | .paren _ e, h => elaborate_ends henv hΓ e h
  | .app _ head args, h => by
    rw [Surface.Term.funFree, Bool.and_eq_true] at h
    refine Ends.bind (elaborateArgs_ends henv hΓ args h.2) fun as _ has => ?_
    have hspine : ∀ (f : Expr) (t : UInt64), f.funFree →
        Ends (fun _ => (pure (f.mkApp as) : ElabM Expr)) t fun e => e.funFree :=
      fun f t hf => .pure (funFree_mkApp hf has)
    dsimp only
    split
    · exact (resolve_ends henv hΓ _ has).bind hspine
    · exact (elaborate_ends henv hΓ head h.1).bind hspine
  | .arrow _ dom cod, h => by
    rw [Surface.Term.funFree, Bool.and_eq_true] at h
    refine Ends.bind (elaborate_ends henv hΓ dom h.1) fun d _ hd => ?_
    refine Ends.bind (elaborate_ends henv hΓ cod h.2) fun c _ hc => .pure ?_
    exact funFree_pi.mpr ⟨hd, funFree_lift 1 hc⟩
  | .pi _ binders body, h => by
    rw [Surface.Term.funFree, Bool.and_eq_true] at h
    exact elaborateBinders_ends henv hΓ (fun _ _ hΓ => elaborate_ends henv hΓ body h.2) binders h.1
  | .binary _ op lhs rhs, h => by
    rw [Surface.Term.funFree, Bool.and_eq_true] at h
    refine Ends.bind (elaborate_ends henv hΓ lhs h.1) fun l _ hl => ?_
    exact Ends.bind (elaborate_ends henv hΓ rhs h.2) fun r _ hr => operation_ends henv hΓ op hl hr

theorem elaborateArgs_ends {Γ : LocalContext} {s : UInt64} (henv : env.FunFree) (hΓ : Γ.FunFree) :
    ∀ args : Surface.Args, args.funFree →
      Ends (fun n => elaborateArgs env n Γ args) s fun as => ∀ a ∈ as, a.funFree
  | .one a, h =>
    Ends.bind (elaborate_ends henv hΓ a h) fun _ _ ha => .pure (by simpa using ha)
  | .cons a rest, h => by
    rw [Surface.Args.funFree, Bool.and_eq_true] at h
    refine Ends.bind (elaborate_ends henv hΓ a h.1) fun _ _ ha => ?_
    exact Ends.bind (elaborateArgs_ends henv hΓ rest h.2) fun _ _ hrest =>
      .pure (List.forall_mem_cons.mpr ⟨ha, hrest⟩)

theorem elaborateBinders_ends {Γ : LocalContext} {s : UInt64} (henv : env.FunFree)
    (hΓ : Γ.FunFree) {body : Nat → LocalContext → ElabM Expr}
    (hbody : ∀ Γ t, Γ.FunFree → Ends (fun n => body n Γ) t fun e => e.funFree) :
    ∀ binders : Surface.Binders, binders.funFree →
      Ends (fun n => elaborateBinders env n .pi (body n) Γ binders) s fun e => e.funFree
  | .one b type, h =>
    Ends.bind (elaborate_ends henv hΓ type h) fun _ _ htype =>
      openBinder_ends henv hΓ b.name htype hbody
  | .cons b type rest, h => by
    rw [Surface.Binders.funFree, Bool.and_eq_true] at h
    exact Ends.bind (elaborate_ends henv hΓ type h.1) fun _ _ htype =>
      openBinder_ends henv hΓ b.name htype fun _ _ hΓ =>
        elaborateBinders_ends henv hΓ hbody rest h.2

end

theorem elaborateProp_ends (henv : env.FunFree) (hΓ : Γ.FunFree) {t : Surface.Term}
    (ht : t.funFree) : Ends (fun n => elaborateProp env n Γ t) s fun e => e.funFree := by
  refine Ends.bind (elaborate_ends henv hΓ t ht) fun e _ he => ?_
  refine Ends.bind (inferType_ends henv hΓ he) fun T _ hT => ?_
  refine Ends.bind (Ends.lift (whnf_settles henv hT)) fun W _ _ => ?_
  split
  · exact .pure he
  · exact .throw _

end Elaboration

/-! ### Declarations -/

/-- A declaration ends, and no function is written in the constants after it. -/
theorem Catalogue.declare_settles {k : Catalogue} {c : Constant} (hk : k.InStep)
    (henv : k.listing.FunFree) (hc : c.type.funFree ∧ c.value = none) :
    Settles (fun n => ((declare n c).outcome k).run) fun r =>
      ∀ k', r = .ok k' → k'.InStep ∧ k'.listing.FunFree := by
  have hadd : ∀ n r, k.listing.declare n c = some r →
      ∀ env', r = .ok env' → k.contains c.name = false ∧ env' = (k.add c).listing := by
    rintro n r hr env' rfl
    exact contains_eq_false_of_declare hk hr
  have hadd := (Environment.declare_settles henv hc).and hadd
  refine Settles.congr (hadd.map (f := Except.map fun _ => k.add c) fun r hr => ?_)
    fun n => run_outcome_declare hk
  rintro k' hk'
  cases r with
  | error e => cases hk'
  | ok env' =>
    obtain rfl := Except.ok.inj hk'
    obtain ⟨hfree, rfl⟩ := hr.2 env' rfl
    exact ⟨hk.add hfree, hr.1 _ rfl⟩

/-! ### Problems -/

namespace Problem

/-- The texts of a problem. -/
def texts (p : Problem) : List String :=
  p.constants.map ProblemItem.type ++ p.hypotheses.map ProblemItem.type ++ [p.goal]

/-- Whether a text that can be read has no function written in it. -/
def TextFunFree (text : String) : Prop := ∀ t, Surface.Term.parse text = .ok t → t.funFree

instance (text : String) : Decidable (TextFunFree text) :=
  match h : Surface.Term.parse text with
  | .ok t => decidable_of_iff (t.funFree = true) (by simp [TextFunFree, h])
  | .error e => isTrue (by simp [TextFunFree, h])

/-- Whether no function is written in a problem. -/
def FunFree (p : Problem) : Prop := ∀ text ∈ p.texts, TextFunFree text

instance (p : Problem) : Decidable p.FunFree :=
  inferInstanceAs (Decidable (∀ text ∈ p.texts, TextFunFree text))

/-- Whether a part of the loading ends once it has enough fuel, and its result, if
it has one, is as asked. -/
def Loads {α : Type} (m : Nat → ProblemM α) (Q : α → Prop) : Prop :=
  Settles (fun n => (m n).run) fun r => ∀ a, r = .ok a → Q a

namespace Loads

variable {α β : Type} {m : Nat → ProblemM α} {Q : α → Prop} {R : β → Prop}

theorem pure {a : α} (ha : Q a) : Loads (fun _ => Pure.pure a) Q := by
  refine Settles.pure (a := Except.ok a) fun b hb => ?_
  obtain rfl := Except.ok.inj hb
  exact ha

theorem throw (e : ProblemError) : Loads (fun _ => MonadExcept.throw e) Q :=
  Settles.pure (a := Except.error e) nofun

theorem bind {f : Nat → α → ProblemM β} (h : Loads m Q) (hf : ∀ a, Q a → Loads (fun n => f n a) R) :
    Loads (fun n => m n >>= f n) R := by
  have hrun : ∀ n, (m n >>= f n).run = (m n).run.bind fun r => match r with
      | .ok a => (f n a).run
      | .error e => some (.error e) := by
    intro n
    show (m n).run.bind _ = _
    refine congrArg _ (funext fun r => ?_)
    cases r <;> rfl
  refine Settles.congr (Settles.bind h fun r hr => ?_) hrun
  cases r with
  | error e => exact Settles.pure nofun
  | ok a => exact hf a (hr a rfl)

theorem lift {o : Nat → Option α} (h : Settles o Q) : Loads (fun n => liftM (o n)) Q := by
  have hrun : ∀ n, (liftM (o n) : ProblemM α).run = (o n).map Except.ok := by
    intro n
    cases o n <;> rfl
  refine Settles.congr (h.map fun a ha b hb => ?_) hrun
  obtain rfl := Except.ok.inj hb
  exact ha

end Loads

section
variable {env : Environment} {Γ : LocalContext} {text : String} {items : List ProblemItem}

/-- The reading of a text ends. -/
theorem readPart_loads (part : Part) {meaning : Nat → Surface.Term → ElabM Expr}
    (htext : TextFunFree text) (hmeaning : ∀ t, t.funFree →
      Ends (fun n => meaning n t) Elaboration.firstBinder fun e => e.funFree) :
    Loads (fun n => readPart part text (meaning n)) fun e => e.funFree := by
  unfold readPart
  cases ht : Surface.Term.parse text with
  | error e => exact .throw _
  | ok t =>
    refine Loads.bind (.lift (hmeaning t (htext t ht)).run') fun r hr => ?_
    cases r with
    | error e => exact .throw _
    | ok e => exact .pure (hr e rfl)

/-- The declaration of constants ends. -/
theorem declareConstants_loads {k : Catalogue} (hk : k.InStep) (henv : k.listing.FunFree)
    (hitems : ∀ item ∈ items, TextFunFree item.type) :
    Loads (fun n => declareConstants n k items) fun k' => k'.listing.FunFree := by
  induction items generalizing k with
  | nil => exact .pure henv
  | cons item items ih =>
    obtain ⟨hitem, hitems⟩ := List.forall_mem_cons.mp hitems
    refine Loads.bind (readPart_loads _ hitem fun t ht =>
      Elaboration.elaborate_ends henv (Γ := .empty) nofun t ht) fun type htype => ?_
    refine Loads.bind (.lift (Catalogue.declare_settles hk henv ⟨htype, rfl⟩)) fun r hr => ?_
    cases r with
    | error e => exact .throw _
    | ok k' =>
      obtain ⟨hk', henv'⟩ := hr k' rfl
      exact ih hk' henv' hitems

/-- The reading of hypotheses ends. -/
theorem readHypotheses_loads (henv : env.FunFree) (hΓ : Γ.FunFree) (next : UInt64)
    (hitems : ∀ item ∈ items, TextFunFree item.type) :
    Loads (fun n => readHypotheses n env next Γ items) fun r => r.1.FunFree := by
  induction items generalizing Γ next with
  | nil => exact .pure hΓ
  | cons item items ih =>
    obtain ⟨hitem, hitems⟩ := List.forall_mem_cons.mp hitems
    refine Loads.bind (readPart_loads _ hitem fun t ht =>
      Elaboration.elaborate_ends henv hΓ t ht) fun type htype => ?_
    exact Loads.bind (ih (hΓ.push htype _ _) _ hitems) fun r hr => .pure hr

end

/-- The prelude is never refused. -/
theorem ofPrelude_eq {n : Nat} {r : Except CheckError Catalogue}
    (h : (Catalogue.ofPrelude n).run = some r) :
    ∃ k, r = .ok k ∧ k.InStep ∧ k.listing = ⟨Prelude.constants⟩ := by
  obtain ⟨⟨answer, k⟩, hk, rfl⟩ := Option.map_eq_some_iff.mp h
  have henv : Catalogue.empty.listing.declareAll n Prelude.constants =
      some (k.listing, answer) := by
    rw [← Catalogue.answer_declareAll Catalogue.inStep_empty, hk]
    rfl
  have henv := Environment.declareAll_mono (Nat.le_max_left n 50) henv
  have hprelude := Environment.declareAll_mono (Nat.le_max_right n 50)
    Environment.declareAll_prelude
  obtain ⟨hlisting, rfl⟩ := Prod.mk.inj (Option.some.inj (henv.symm.trans hprelude))
  exact ⟨k, rfl, Catalogue.keeps_declareAll _ _ hk Catalogue.inStep_empty, hlisting⟩

theorem ofPrelude_settles : Settles (fun n => (Catalogue.ofPrelude n).run) fun r =>
    ∃ k, r = .ok k ∧ k.InStep ∧ k.listing = ⟨Prelude.constants⟩ := by
  obtain ⟨k, hk, hinStep, hlisting⟩ : ∃ k : Catalogue,
      (∀ n, 50 ≤ n → (Catalogue.declareAll n Prelude.constants).answer .empty =
        some (.ok (), k)) ∧ k.InStep ∧ k.listing = ⟨Prelude.constants⟩ := by
    have hprelude : ∀ n, 50 ≤ n → _ := fun n hn =>
      Catalogue.answer_declareAll_of_ok Catalogue.inStep_empty
        (Environment.declareAll_mono hn Environment.declareAll_prelude)
    exact ⟨_, fun n hn => (hprelude n hn).1, (hprelude 50 (Nat.le_refl 50)).2⟩
  refine .of_eq (a := .ok k) 50 (fun n hn => ?_) ⟨k, rfl, hinStep, hlisting⟩
  rw [Catalogue.ofPrelude, ChangeM.run_outcome, hk n hn]
  rfl

theorem funFree_prelude : Environment.FunFree ⟨Prelude.constants⟩ := by
  unfold Environment.FunFree
  decide

/-- A problem in which no function is written loads: all large amounts of fuel lead
to the same proof state, or to the same error. -/
theorem toState_settles {p : Problem} (hp : p.FunFree) :
    Settles (fun fuel => (p.toState fuel).run) fun _ => True := by
  have hconstants : ∀ item ∈ p.constants, TextFunFree item.type := fun item hitem =>
    hp _ (by simp [texts]; grind)
  have hhypotheses : ∀ item ∈ p.hypotheses, TextFunFree item.type := fun item hitem =>
    hp _ (by simp [texts]; grind)
  have hgoal : TextFunFree p.goal := hp _ (by simp [texts])
  have henvironment : Loads (fun n => p.environment n) fun env => env.FunFree := by
    refine Loads.bind (.lift ofPrelude_settles) fun r hr => ?_
    obtain ⟨k, rfl, hk, hlisting⟩ := hr
    refine Loads.bind (declareConstants_loads hk ?_ hconstants) fun k' hk' => .pure hk'
    rw [hlisting]
    exact funFree_prelude
  have hstate : Loads (fun n => p.toState n) fun _ => True := by
    refine Loads.bind henvironment fun env henv => ?_
    refine Loads.bind (readHypotheses_loads henv (Γ := .empty) nofun 0 hhypotheses) fun r hr => ?_
    obtain ⟨Γ, hyps⟩ := r
    exact Loads.bind (readPart_loads _ hgoal fun t ht =>
      Elaboration.elaborateProp_ends henv hr ht) fun e _ => .pure trivial
  exact hstate.mono fun _ _ => trivial

/-- A constant, a hypothesis that mentions it, and a goal about both. -/
theorem funFree_settles : (FunFree ⟨[⟨"c", "Nat"⟩], [⟨"h", "c = c"⟩], "c = c → h = h"⟩) ∧
    Settles (fun fuel => (toState fuel
      ⟨[⟨"c", "Nat"⟩], [⟨"h", "c = c"⟩], "c = c → h = h"⟩).run) fun _ => True := by
  have hfree : FunFree ⟨[⟨"c", "Nat"⟩], [⟨"h", "c = c"⟩], "c = c → h = h"⟩ := by
    decide +kernel
  exact ⟨hfree, toState_settles hfree⟩

/-! ### A problem that never loads -/

namespace AppliedToItself

/-- The type of the hypothesis `h`: a function that applies its argument to
itself, applied to itself. -/
def application : Expr :=
  .app (.lam .default .prop (.app (.bvar 0) (.bvar 0)))
    (.lam .default .prop (.app (.bvar 0) (.bvar 0)))

/-- The problem, in which the hypothesis is applied. -/
def problem : Problem :=
  ⟨[], [⟨"h", "(fun (x : Prop) => x x) (fun (x : Prop) => x x)"⟩], "h h"⟩

def locals : LocalContext := .push .empty ⟨0⟩ (.ofString "h") application

variable (env : Environment) (n : Nat)

/-- It reduces to itself. -/
theorem whnf_application (t : Transparency) : env.whnf t n application = none := by
  induction n with
  | zero => rfl
  | succ n ih =>
    cases n with
    | zero => rfl
    | succ n => exact ih

theorem readHypotheses_eq : readHypotheses (n + 1) env 0 .empty problem.hypotheses =
    pure (locals, [⟨⟨0⟩, "h", application, none⟩]) := by
  let function (start : Nat) : Surface.Term :=
    .paren ⟨start, start + 23⟩ (.lam ⟨start + 1, start + 22⟩
      (.one ⟨⟨start + 6, start + 7⟩, "x"⟩ (.prop ⟨start + 10, start + 14⟩))
      (.app ⟨start + 19, start + 22⟩ (.ident ⟨start + 19, start + 20⟩ "x")
        (.one (.ident ⟨start + 21, start + 22⟩ "x"))))
  have hparse : Surface.Term.parse "(fun (x : Prop) => x x) (fun (x : Prop) => x x)" =
      .ok (.app ⟨0, 47⟩ (function 0) (.one (function 24))) := by
    decide +kernel
  have helaborate : Elaboration.runFresh (Elaboration.elaborate env (n + 1) .empty
      (.app ⟨0, 47⟩ (function 0) (.one (function 24)))) = some (.ok application) := rfl
  simp only [problem, readHypotheses, readPart, hparse, helaborate]
  rfl

theorem inferType_eq :
    env.inferType n locals (.app (.fvar ⟨0⟩) (.fvar ⟨0⟩)) = liftM (none : Option Expr) := by
  match n with
  | 0 => rfl
  | 1 => rfl
  | n + 2 =>
    have hvar : env.inferType (n + 1) locals (.fvar ⟨0⟩) = pure application := rfl
    rw [Environment.inferType, hvar, pure_bind, whnf_application]
    rfl

theorem readGoal_eq :
    readPart .goal problem.goal (Elaboration.elaborateProp env n locals) =
      liftM (none : Option Expr) := by
  let goal : Surface.Term :=
    .app ⟨0, 3⟩ (.ident ⟨0, 1⟩ "h") (.one (.ident ⟨2, 3⟩ "h"))
  have hparse : Surface.Term.parse "h h" = .ok goal := by decide +kernel
  have helaborate : Elaboration.elaborate env n locals goal =
      pure (.app (.fvar ⟨0⟩) (.fvar ⟨0⟩)) := rfl
  simp only [problem, readPart, hparse]
  rw [Elaboration.elaborateProp, helaborate, pure_bind, Elaboration.inferType,
    Checker.inferType, inferType_eq]
  rfl

end AppliedToItself

open AppliedToItself in
/-- A hypothesis is not checked, so its type may go on reducing for ever: the
problem does not load, however much fuel there is. -/
theorem toState_of_applied_to_itself : (fun fuel => (problem.toState fuel).run) = fun _ => none := by
  funext fuel
  match fuel with
  | 0 => rfl
  | n + 1 =>
    rw [toState, environment]
    cases h : (Catalogue.ofPrelude (n + 1)).run with
    | none => rfl
    | some r =>
      obtain ⟨k, rfl, -, -⟩ := ofPrelude_eq h
      show (readHypotheses (n + 1) k.listing 0 .empty problem.hypotheses >>= fun r =>
        readPart .goal problem.goal
          (Elaboration.elaborateProp k.listing (n + 1) r.1) >>= _ : ProblemM _).run = none
      rw [readHypotheses_eq, pure_bind]
      show (readPart .goal problem.goal (Elaboration.elaborateProp k.listing (n + 1)
        locals) >>= _ : ProblemM _).run = none
      rw [readGoal_eq]
      rfl

end Problem

end Pinpoint
