/-
Bound names do not matter.

`Term.renamings y` are the terms that come from a term when one binder is called
`y`, along with the identifiers that it binds and with no others.  If `y` is an
identifier that does not occur in the term, all of them are elaborated as the term
itself is: in every context the same variables are drawn and opened, under names
that only the text can tell apart.

* `Term.rename`, `Term.renamings` — renaming under binders;
* `Answers` — two contexts with the same variables, in which names are answered
  alike up to a renaming; `Answers.push`, `Answers.opened` — binders keep it;
* `Answers.elaborate` — the renamed term means the same in the other context;
* `elaborate_renamings` — one binder, wherever it stands;
* `elaborate_renamed_binder` — the same for terms that are read.
-/
import Mathlib.Logic.Function.Basic
import Pinpoint.Proofs.Identifiers
import Pinpoint.Proofs.Pasting

namespace Pinpoint

namespace Surface

/-! ### Renaming identifiers -/

/-- In the scope of a binder its name stands for itself. -/
def Binder.shadow (b : Binder) (ρ : String → String) : String → String :=
  Function.update ρ b.name b.name

/-- How identifiers are renamed in the scope of all of the binders. -/
def Binders.shadow (ρ : String → String) : Binders → String → String
  | .one b _ => b.shadow ρ
  | .cons b _ rest => rest.shadow (b.shadow ρ)

mutual

/-- A term with its identifiers renamed, except for those that it binds itself. -/
def Term.rename (ρ : String → String) : Term → Term
  | .ident s name => .ident s (ρ name)
  | .prop s => .prop s
  | .type s => .type s
  | .nat s n => .nat s n
  | .str s text => .str s text
  | .app s head args => .app s (head.rename ρ) (args.rename ρ)
  | .lam s binders body => .lam s (binders.rename ρ) (body.rename (binders.shadow ρ))
  | .pi s binders body => .pi s (binders.rename ρ) (body.rename (binders.shadow ρ))
  | .arrow s dom cod => .arrow s (dom.rename ρ) (cod.rename ρ)
  | .binary s op lhs rhs => .binary s op (lhs.rename ρ) (rhs.rename ρ)
  | .paren s e => .paren s (e.rename ρ)

/-- Arguments with their identifiers renamed. -/
def Args.rename (ρ : String → String) : Args → Args
  | .one a => .one (a.rename ρ)
  | .cons a rest => .cons (a.rename ρ) (rest.rename ρ)

/-- Binders with the identifiers in their types renamed; the type of a binder is in
the scope of the binders before it. -/
def Binders.rename (ρ : String → String) : Binders → Binders
  | .one b type => .one b (type.rename ρ)
  | .cons b type rest => .cons b (type.rename ρ) (rest.rename (b.shadow ρ))

end

mutual

/-- The terms that come from a term when one of its binders is called `y`, and the
identifiers that it binds with it.  A binder without a name is left alone. -/
def Term.renamings (y : String) : Term → List Term
  | .ident .. | .prop _ | .type _ | .nat .. | .str .. => []
  | .app s head args =>
    (head.renamings y).map (.app s · args) ++ (args.renamings y).map (.app s head)
  | .lam s binders body =>
    (binders.renamings y body).map (fun r => .lam s r.1 r.2) ++
      (body.renamings y).map (.lam s binders)
  | .pi s binders body =>
    (binders.renamings y body).map (fun r => .pi s r.1 r.2) ++
      (body.renamings y).map (.pi s binders)
  | .arrow s dom cod =>
    (dom.renamings y).map (.arrow s · cod) ++ (cod.renamings y).map (.arrow s dom)
  | .binary s op lhs rhs =>
    (lhs.renamings y).map (.binary s op · rhs) ++ (rhs.renamings y).map (.binary s op lhs)
  | .paren s e => (e.renamings y).map (.paren s)

/-- The arguments that come from renaming one binder in them. -/
def Args.renamings (y : String) : Args → List Args
  | .one a => (a.renamings y).map .one
  | .cons a rest => (a.renamings y).map (.cons · rest) ++ (rest.renamings y).map (.cons a)

/-- The binders, with the body that they are around, that come from renaming one of
them or one in their types. -/
def Binders.renamings (y : String) (body : Term) : Binders → List (Binders × Term)
  | .one b type =>
    (if b.name = "_" then []
      else [(.one ⟨b.span, y⟩ type, body.rename (Function.update id b.name y))]) ++
      (type.renamings y).map fun type => (.one b type, body)
  | .cons b type rest =>
    (if b.name = "_" then []
      else [(.cons ⟨b.span, y⟩ type (rest.rename (Function.update id b.name y)),
        body.rename (rest.shadow (Function.update id b.name y)))]) ++
      (type.renamings y).map (fun type => (.cons b type rest, body)) ++
      (rest.renamings y body).map fun r => (.cons b type r.1, r.2)

end

/-- Renamings of the one part, or of the other. -/
theorem mem_map_append_map {α β γ : Type} {f : α → γ} {g : β → γ} {as : List α} {bs : List β}
    {c : γ} : c ∈ as.map f ++ bs.map g ↔ (∃ a ∈ as, f a = c) ∨ ∃ b ∈ bs, g b = c := by
  rw [List.mem_append, List.mem_map, List.mem_map]

theorem Term.unparen_rename (ρ : String → String) (e : Term) :
    (e.rename ρ).unparen = e.unparen.rename ρ :=
  match e with
  | .paren _ e => unparen_rename ρ e
  | .ident .. | .prop _ | .type _ | .nat .. | .str .. | .app .. | .arrow .. | .binary ..
  | .lam .. | .pi .. => rfl

/-- A renaming changes a binder, so that a name is not the head of either term. -/
theorem Term.unparen_of_mem_renamings {y : String} : ∀ {e e' : Term}, e' ∈ e.renamings y →
    (∀ s name, e.unparen ≠ .ident s name) ∧ ∀ s name, e'.unparen ≠ .ident s name
  | .paren s e, _, h => by
    obtain ⟨r, hr, rfl⟩ := List.mem_map.mp h
    exact @unparen_of_mem_renamings _ e r hr
  | .ident .., _, h | .prop _, _, h | .type _, _, h | .nat .., _, h | .str .., _, h =>
    absurd h List.not_mem_nil
  | .app .., _, h | .arrow .., _, h | .binary .., _, h | .lam .., _, h | .pi .., _, h => by
    refine ⟨nofun, fun s name => ?_⟩
    rcases mem_map_append_map.mp h with ⟨r, -, rfl⟩ | ⟨r, -, rfl⟩
    · exact nofun
    · exact nofun

end Surface

theorem LocalContext.type_push (Γ : LocalContext) (x z : FVarId) (name : Name) (T : Expr) :
    ((Γ.push x name T).find? z).map LocalEntry.type =
      if x = z then some T else (Γ.find? z).map LocalEntry.type := by
  rw [find?_push]
  split <;> rfl

/-- The variable that a name stands for; `_` stands for none. -/
def LocalContext.named? (Γ : LocalContext) (name : String) : Option FVarId :=
  if name = "_" then none else (Γ.findName? name).map LocalEntry.fvar

theorem LocalContext.named?_eq_none {Γ : LocalContext} {name : String} :
    Γ.named? name = none ↔ (if name = "_" then none else Γ.findName? name) = none := by
  simp [named?]

theorem LocalContext.named?_push {Γ : LocalContext} {x : FVarId} {name z : String} {T : Expr}
    (hname : (Name.ofString name).render = name) :
    (Γ.push x (.ofString name) T).named? z =
      if z = name ∧ z ≠ "_" then some x else Γ.named? z := by
  rw [named?, named?, Elaboration.Parallel.findName?_push, hname]
  grind

namespace Elaboration

/-- A name of a variable stands for it, whatever it is applied to. -/
theorem resolve_of_named {env : Environment} {n : Nat} {Γ : LocalContext} {name : String}
    {x : FVarId} (h : Γ.named? name = some x) (args : List Expr) :
    resolve env n Γ name args = pure (.fvar x) := by
  obtain ⟨hname, entry, hentry, rfl⟩ : name ≠ "_" ∧ ∃ entry, Γ.findName? name = some entry ∧
      entry.fvar = x := by simpa [LocalContext.named?] using h
  rw [resolve, if_neg hname, hentry]

/-- A name for binders that is written as it was read, and is none of the names that
satisfy `p`, which are written as they were read too. -/
structure Unused (p : String → Prop) (y : String) : Prop where
  spelled : ∀ z, p z → (Name.ofString z).render = z
  render : (Name.ofString y).render = y
  named : y ≠ "_"
  fresh : ¬ p y

/-- Two contexts with the same variables, for terms whose names satisfy `p`.  Each
name `z` is answered in the one as `ρ z` in the other; names that stand for constants
are not renamed, and a name that is renamed becomes none of the names in the terms. -/
structure Answers (ρ : String → String) (p : String → Prop) (Γ Γ' : LocalContext) : Prop where
  spelled : ∀ z, p z → (Name.ofString z).render = z
  types : ∀ x, (Γ'.find? x).map LocalEntry.type = (Γ.find? x).map LocalEntry.type
  named : ∀ z, p z → Γ'.named? (ρ z) = Γ.named? z
  free : ∀ z, p z → Γ.named? z = none → ρ z = z
  apart : ∀ z, p z → ρ z ≠ z → ¬ p (ρ z)

namespace Answers

variable {env : Environment} {n : Nat} {Γ Γ' : LocalContext} {ρ : String → String}
  {p : String → Prop} {x : FVarId} {T : Expr} {b y : String}

/-! ### Binders -/

/-- A binder is opened in both contexts, under the same name. -/
theorem push (h : Answers ρ p Γ Γ') (hb : p b) :
    Answers (Function.update ρ b b) p (Γ.push x (.ofString b) T) (Γ'.push x (.ofString b) T) where
  spelled := h.spelled
  types z := by rw [LocalContext.type_push, LocalContext.type_push, h.types]
  named z hz := by
    rw [LocalContext.named?_push (h.spelled b hb), LocalContext.named?_push (h.spelled b hb)]
    by_cases hzb : z = b
    · subst hzb
      rw [Function.update_self]
      by_cases hnone : z = "_"
      · simp [hnone, LocalContext.named?]
      · rw [if_pos ⟨rfl, hnone⟩, if_pos ⟨rfl, hnone⟩]
    · -- the binder is not called like a name that has been renamed
      have hρ : ρ z ≠ b := by
        intro heq
        by_cases hfix : ρ z = z
        · exact hzb (hfix.symm.trans heq)
        · exact h.apart z hz hfix (heq ▸ hb)
      rw [Function.update_of_ne hzb, if_neg (mt And.left hρ), if_neg (mt And.left hzb),
        h.named z hz]
  free z hz hnone := by
    by_cases hzb : z = b
    · rw [hzb, Function.update_self]
    · rw [LocalContext.named?_push (h.spelled b hb), if_neg (mt And.left hzb)] at hnone
      rw [Function.update_of_ne hzb, h.free z hz hnone]
  apart z hz hne := by
    by_cases hzb : z = b
    · exact absurd (by rw [hzb, Function.update_self]) hne
    · rw [Function.update_of_ne hzb] at hne ⊢
      exact h.apart z hz hne

/-- A binder is opened under a name in the one context, and under a new one in the
other. -/
theorem opened (hy : Unused p y) (hb : p b) (hname : b ≠ "_") :
    Answers (Function.update id b y) p (Γ.push x (.ofString b) T) (Γ.push x (.ofString y) T) where
  spelled := hy.spelled
  types z := by rw [LocalContext.type_push, LocalContext.type_push]
  named z hz := by
    rw [LocalContext.named?_push (hy.spelled b hb), LocalContext.named?_push hy.render]
    by_cases hzb : z = b
    · subst hzb
      rw [Function.update_self, if_pos ⟨rfl, hy.named⟩, if_pos ⟨rfl, hname⟩]
    · have hzy : z ≠ y := fun heq => hy.fresh (heq ▸ hz)
      rw [Function.update_of_ne hzb, id, if_neg (mt And.left hzy), if_neg (mt And.left hzb)]
  free z hz hnone := by
    by_cases hzb : z = b
    · rw [LocalContext.named?_push (hy.spelled b hb), if_pos ⟨hzb, hzb ▸ hname⟩] at hnone
      cases hnone
    · rw [Function.update_of_ne hzb, id]
  apart z hz hne := by
    by_cases hzb : z = b
    · rw [hzb, Function.update_self]
      exact hy.fresh
    · exact absurd (by rw [Function.update_of_ne hzb, id]) hne

/-! ### What is asked of a context -/

section
variable (h : Answers ρ p Γ Γ')
include h

/-- A checker looks at the types of variables, and at their names never. -/
theorem infers (e : Expr) : env.inferType n Γ' e = env.inferType n Γ e :=
  Environment.inferType_congr_types (p := fun _ => True) (fun x _ => h.types x)
    (Expr.fvarsIn_of_forall (fun _ => trivial) e)

theorem inferType (e : Expr) : inferType env n Γ' e = inferType env n Γ e :=
  congrArg ofCheck (h.infers e)

theorem sortLevel (e : Expr) : sortLevel env n Γ' e = sortLevel env n Γ e := by
  have hsort : Checker.ensureSort ⟨env, Γ', n⟩ e = Checker.ensureSort ⟨env, Γ, n⟩ e := by
    rw [Checker.ensureSort, Checker.ensureSort, Checker.inferType, Checker.inferType, h.infers]
  exact congrArg ofCheck hsort

theorem solveLevels (params : List Name) (type : Expr) (args : List Expr)
    (solved : List (Option Level)) :
    solveLevels env n Γ' params type args solved = solveLevels env n Γ params type args solved := by
  induction args generalizing type solved with
  | nil => rw [solveLevels_nil, solveLevels_nil]
  | cons a args ih =>
    rcases solveLevels_cons params type solved with
      ⟨body, hstep⟩ | ⟨body, next, hstep⟩ | hstep
    · rw [hstep, hstep, ih]
    · rw [hstep, hstep, h.sortLevel]
      exact congrArg _ (funext fun l => ih body (next l))
    · rw [hstep, hstep]

theorem resolve {z : String} (hz : p z) (args : List Expr) :
    resolve env n Γ' (ρ z) args = resolve env n Γ z args := by
  cases hx : Γ.named? z with
  | some x => rw [resolve_of_named hx, resolve_of_named ((h.named z hz).trans hx)]
  | none =>
    -- the name stands for a constant in both contexts, and is not renamed
    have hx' : Γ'.named? z = none := h.free z hz hx ▸ (h.named z hz).trans hx
    rw [LocalContext.named?_eq_none] at hx hx'
    simp only [h.free z hz (LocalContext.named?_eq_none.mpr hx), Elaboration.resolve, hx, hx',
      h.solveLevels]

theorem operation (op : Operator) (lhs rhs : Expr) :
    operation env n Γ' op lhs rhs = operation env n Γ op lhs rhs := by
  cases op <;> simp only [Elaboration.operation, h.inferType, h.sortLevel]

theorem openBinder {mk : BinderInfo → Expr → Expr → Expr}
    {inside inside' : LocalContext → ElabM Expr} (hb : p b) (T : Expr)
    (hinside : ∀ Γ Γ', Answers (Function.update ρ b b) p Γ Γ' → inside' Γ' = inside Γ) :
    openBinder env n mk Γ' b T inside' = openBinder env n mk Γ b T inside := by
  rw [Elaboration.openBinder, Elaboration.openBinder, h.sortLevel]
  refine congrArg _ (funext fun l => congrArg _ (funext fun x => ?_))
  rw [hinside _ _ (h.push hb)]

end

/-! ### Renamed terms -/

mutual

/-- A renamed term means in the one context what the term means in the other. -/
theorem elaborate : ∀ (e : Surface.Term) {ρ : String → String} {Γ Γ' : LocalContext},
    Answers ρ p Γ Γ' → e.NamesIn p →
    Elaboration.elaborate env n Γ' (e.rename ρ) = Elaboration.elaborate env n Γ e
  | .ident _ name, ρ, Γ, Γ', h, he => h.resolve he []
  | .prop _, _, _, _, _, _ | .type _, _, _, _, _, _ | .nat _ _, _, _, _, _, _
  | .str _ _, _, _, _, _, _ => rfl
  | .paren _ e, _, _, _, h, he => elaborate e h he
  | .app _ head args, ρ, Γ, Γ', h, he => by
    have hargs := elaborateArgs args h he.2
    have hhead : ∀ es, elaborateHead env n Γ' (head.rename ρ) es = elaborateHead env n Γ head es := by
      intro es
      unfold elaborateHead
      rw [Surface.Term.unparen_rename]
      -- a head that is a name is resolved with its arguments at hand
      cases hhead : head.unparen with
      | ident span name =>
        have hname : p name := by
          have hident := he.1.unparen
          rwa [hhead] at hident
        exact h.resolve hname es
      | _ => exact elaborate head h he.1
    rw [Surface.Term.rename, elaborate_app, elaborate_app, hargs, funext hhead]
  | .arrow _ dom cod, _, _, _, h, he => by
    rw [Surface.Term.rename, Elaboration.elaborate, Elaboration.elaborate, elaborate dom h he.1,
      elaborate cod h he.2]
  | .binary _ op lhs rhs, _, _, _, h, he => by
    rw [Surface.Term.rename, Elaboration.elaborate, Elaboration.elaborate, elaborate lhs h he.1,
      elaborate rhs h he.2]
    simp only [h.operation]
  | .lam _ binders body, _, _, _, h, he =>
    elaborateBinders binders h he.1 fun _ _ h => elaborate body h he.2
  | .pi _ binders body, _, _, _, h, he =>
    elaborateBinders binders h he.1 fun _ _ h => elaborate body h he.2

theorem elaborateArgs : ∀ (args : Surface.Args) {ρ : String → String} {Γ Γ' : LocalContext},
    Answers ρ p Γ Γ' → args.NamesIn p →
    Elaboration.elaborateArgs env n Γ' (args.rename ρ) = Elaboration.elaborateArgs env n Γ args
  | .one a, _, _, _, h, ha => by
    rw [Surface.Args.rename, Elaboration.elaborateArgs, Elaboration.elaborateArgs,
      elaborate a h ha]
  | .cons a rest, _, _, _, h, ha => by
    rw [Surface.Args.rename, Elaboration.elaborateArgs, Elaboration.elaborateArgs,
      elaborate a h ha.1, elaborateArgs rest h ha.2]

theorem elaborateBinders {mk : BinderInfo → Expr → Expr → Expr}
    {body body' : LocalContext → ElabM Expr} :
    ∀ (binders : Surface.Binders) {ρ : String → String} {Γ Γ' : LocalContext},
    Answers ρ p Γ Γ' → binders.NamesIn p →
    (∀ Γ Γ', Answers (binders.shadow ρ) p Γ Γ' → body' Γ' = body Γ) →
    Elaboration.elaborateBinders env n mk body' Γ' (binders.rename ρ) =
      Elaboration.elaborateBinders env n mk body Γ binders
  | .one b type, _, _, _, h, hnames, hbody => by
    rw [Surface.Binders.rename, Elaboration.elaborateBinders, Elaboration.elaborateBinders,
      elaborate type h hnames.2]
    exact congrArg _ (funext fun T => h.openBinder hnames.1 T hbody)
  | .cons b type rest, _, _, _, h, hnames, hbody => by
    rw [Surface.Binders.rename, Elaboration.elaborateBinders, Elaboration.elaborateBinders,
      elaborate type h hnames.2.1]
    exact congrArg _ (funext fun T => h.openBinder hnames.1 T
      fun _ _ h => elaborateBinders rest h hnames.2.2 hbody)

end

end Answers

/-! ### One binder -/

section
variable {env : Environment} {n : Nat} {p : String → Prop} {y : String}

/-- A binder that is called `y` is opened as before. -/
theorem openBinder_renamed (hy : Unused p y) {mk : BinderInfo → Expr → Expr → Expr} {b : String}
    (Γ : LocalContext) {inside inside' : LocalContext → ElabM Expr} (hb : p b) (hname : b ≠ "_")
    (T : Expr)
    (hinside : ∀ Γ Γ', Answers (Function.update id b y) p Γ Γ' → inside' Γ' = inside Γ) :
    openBinder env n mk Γ y T inside' = openBinder env n mk Γ b T inside := by
  rw [openBinder, openBinder]
  refine congrArg _ (funext fun l => congrArg _ (funext fun x => ?_))
  rw [hinside _ _ (.opened hy hb hname)]

mutual

/-- A term with one binder renamed means the same. -/
theorem elaborate_renamings (hy : Unused p y) :
    ∀ (e : Surface.Term) {e' : Surface.Term} (Γ : LocalContext),
    e.NamesIn p → e' ∈ e.renamings y → elaborate env n Γ e' = elaborate env n Γ e
  | .ident .., _, _, _, h | .prop _, _, _, _, h | .type _, _, _, _, h | .nat .., _, _, _, h
  | .str .., _, _, _, h => absurd h List.not_mem_nil
  | .paren _ e, _, Γ, he, h => by
    obtain ⟨r, hr, rfl⟩ := List.mem_map.mp h
    exact @elaborate_renamings hy e r Γ he hr
  | .app _ head args, _, Γ, he, h => by
    rcases Surface.mem_map_append_map.mp h with ⟨r, hr, rfl⟩ | ⟨r, hr, rfl⟩
    · -- neither head is a name, so that both stand for themselves
      obtain ⟨hhead, hhead'⟩ := Surface.Term.unparen_of_mem_renamings hr
      simp only [elaborate_app, elaborateHead_of_ne_ident hhead, elaborateHead_of_ne_ident hhead',
        elaborate_renamings hy head Γ he.1 hr]
    · rw [elaborate, elaborate, elaborateArgs_renamings hy args Γ he.2 hr]
  | .arrow _ dom cod, _, Γ, he, h => by
    rcases Surface.mem_map_append_map.mp h with ⟨r, hr, rfl⟩ | ⟨r, hr, rfl⟩
    · rw [elaborate, elaborate, elaborate_renamings hy dom Γ he.1 hr]
    · rw [elaborate, elaborate, elaborate_renamings hy cod Γ he.2 hr]
  | .binary _ op lhs rhs, _, Γ, he, h => by
    rcases Surface.mem_map_append_map.mp h with ⟨r, hr, rfl⟩ | ⟨r, hr, rfl⟩
    · rw [elaborate, elaborate, elaborate_renamings hy lhs Γ he.1 hr]
    · rw [elaborate, elaborate, elaborate_renamings hy rhs Γ he.2 hr]
  | .lam _ binders body, _, Γ, he, h => by
    rcases Surface.mem_map_append_map.mp h with ⟨r, hr, rfl⟩ | ⟨r, hr, rfl⟩
    · exact elaborateBinders_renamings hy binders Γ he.1 he.2 hr
    · rw [elaborate, elaborate]
      exact congrArg (elaborateBinders env n .lam · Γ binders)
        (funext fun Γ => elaborate_renamings hy body Γ he.2 hr)
  | .pi _ binders body, _, Γ, he, h => by
    rcases Surface.mem_map_append_map.mp h with ⟨r, hr, rfl⟩ | ⟨r, hr, rfl⟩
    · exact elaborateBinders_renamings hy binders Γ he.1 he.2 hr
    · rw [elaborate, elaborate]
      exact congrArg (elaborateBinders env n .pi · Γ binders)
        (funext fun Γ => elaborate_renamings hy body Γ he.2 hr)

theorem elaborateArgs_renamings (hy : Unused p y) :
    ∀ (args : Surface.Args) {args' : Surface.Args} (Γ : LocalContext),
    args.NamesIn p → args' ∈ args.renamings y →
    elaborateArgs env n Γ args' = elaborateArgs env n Γ args
  | .one a, _, Γ, ha, h => by
    obtain ⟨r, hr, rfl⟩ := List.mem_map.mp h
    rw [elaborateArgs, elaborateArgs, elaborate_renamings hy a Γ ha hr]
  | .cons a rest, _, Γ, ha, h => by
    rcases Surface.mem_map_append_map.mp h with ⟨r, hr, rfl⟩ | ⟨r, hr, rfl⟩
    · rw [elaborateArgs, elaborateArgs, elaborate_renamings hy a Γ ha.1 hr]
    · rw [elaborateArgs, elaborateArgs, elaborateArgs_renamings hy rest Γ ha.2 hr]

theorem elaborateBinders_renamings (hy : Unused p y) {mk : BinderInfo → Expr → Expr → Expr}
    {body : Surface.Term} :
    ∀ (binders : Surface.Binders) {r : Surface.Binders × Surface.Term} (Γ : LocalContext),
    binders.NamesIn p → body.NamesIn p → r ∈ binders.renamings y body →
    elaborateBinders env n mk (fun Γ => elaborate env n Γ r.2) Γ r.1 =
      elaborateBinders env n mk (fun Γ => elaborate env n Γ body) Γ binders
  | .one b type, _, Γ, hnames, hbody, h => by
    rcases List.mem_append.mp h with h | h
    · -- this binder is the one, and the body is in its scope
      split at h
      · cases h
      · rename_i hname
        obtain rfl := List.mem_singleton.mp h
        exact congrArg _ (funext fun T => openBinder_renamed hy Γ hnames.1 hname T
          fun _ _ h => h.elaborate body hbody)
    · -- it stands in the type, which is outside the scope
      obtain ⟨r, hr, rfl⟩ := List.mem_map.mp h
      rw [elaborateBinders, elaborateBinders, elaborate_renamings hy type Γ hnames.2 hr]
  | .cons b type rest, _, Γ, hnames, hbody, h => by
    rcases List.mem_append.mp h with h | h
    · rcases List.mem_append.mp h with h | h
      · -- the binders that follow are in its scope too
        split at h
        · cases h
        · rename_i hname
          obtain rfl := List.mem_singleton.mp h
          exact congrArg _ (funext fun T => openBinder_renamed hy Γ hnames.1 hname
            T fun _ _ h => Answers.elaborateBinders rest h hnames.2.2
              fun _ _ h => h.elaborate body hbody)
      · obtain ⟨r, hr, rfl⟩ := List.mem_map.mp h
        rw [elaborateBinders, elaborateBinders, elaborate_renamings hy type Γ hnames.2.1 hr]
    · obtain ⟨r, hr, rfl⟩ := List.mem_map.mp h
      rw [elaborateBinders, elaborateBinders]
      refine congrArg _ (funext fun T => congrArg _ (funext fun Γ => ?_))
      exact elaborateBinders_renamings hy rest Γ hnames.2.2 hbody hr

end

end

/-! ### Terms that are read -/

/-- A binder of a term that was read may have any other name that does not occur in
the term: with the identifiers that it binds renamed too, the term is elaborated as
before, in every environment and context, wherever it then stands in its text. -/
theorem elaborate_renamed_binder {text y : String} {w w' r : Surface.Term}
    (hw : Surface.Term.parse text = .ok w) (hy : Surface.isIdentifier y)
    (hfresh : w.NamesIn (· ≠ y)) (hr : r ∈ w.renamings y) (hplaces : w'.bare = r.bare)
    (env : Environment) (n : Nat) (Γ : LocalContext) :
    elaborate env n Γ w' = elaborate env n Γ w := by
  have hunderscore : (Name.ofString "_").render = "_" := by decide +kernel
  have hunused : Unused (fun z => (Name.ofString z).render = z ∧ z ≠ y) y := by
    refine ⟨fun z hz => hz.1, Surface.render_of_isIdentifier hy, ?_, fun h => h.2 rfl⟩
    rintro rfl
    rw [Surface.isIdentifier_underscore] at hy
    cases hy
  -- what is read has names only that are written as they were read
  have hnames : w.NamesIn fun z => (Name.ofString z).render = z ∧ z ≠ y := by
    refine (Surface.namesIn_of_parse hw).imp₂ (fun z hz hne => ⟨?_, hne⟩) hfresh
    rcases hz with rfl | hz
    · exact hunderscore
    · exact Surface.render_of_isIdentifier hz
  calc elaborate env n Γ w' = elaborate env n Γ r := by
        rw [← elaborate_bare, hplaces, elaborate_bare]
    _ = elaborate env n Γ w := elaborate_renamings hunused w Γ hnames hr

/-- `∀ (a : Nat), (fun (x : Nat) => x = x) a` as it is read, for a letter `a`. -/
def reflexivityApplied (a : String) : Surface.Term :=
  .pi ⟨0, 41⟩ (.one ⟨⟨5, 6⟩, a⟩ (.ident ⟨9, 12⟩ "Nat"))
    (.app ⟨15, 41⟩
      (.paren ⟨15, 39⟩ (.lam ⟨16, 38⟩ (.one ⟨⟨21, 22⟩, "x"⟩ (.ident ⟨25, 28⟩ "Nat"))
        (.binary ⟨33, 38⟩ .eq (.ident ⟨33, 34⟩ "x") (.ident ⟨37, 38⟩ "x"))))
      (.one (.ident ⟨40, 41⟩ a)))

/-- Of two binders of the same name the outer one is renamed, with the argument and
not with the equation; both texts have a meaning. -/
theorem elaborate_renamed_outer_binder :
    Surface.Term.parse "∀ (x : Nat), (fun (x : Nat) => x = x) x" = .ok (reflexivityApplied "x") ∧
    Surface.Term.parse "∀ (y : Nat), (fun (x : Nat) => x = x) y" = .ok (reflexivityApplied "y") ∧
    (∀ env n Γ, elaborate env n Γ (reflexivityApplied "y") =
      elaborate env n Γ (reflexivityApplied "x")) ∧
    ((runFresh (elaborate ⟨Prelude.constants⟩ 5 .empty (reflexivityApplied "x"))).map
      Except.isOk) = some true := by
  have hw : Surface.Term.parse "∀ (x : Nat), (fun (x : Nat) => x = x) x" =
      .ok (reflexivityApplied "x") := by decide +kernel
  have hfresh : (reflexivityApplied "x").NamesIn (· ≠ "y") := by
    simp [reflexivityApplied, Surface.Term.NamesIn, Surface.Args.NamesIn, Surface.Binders.NamesIn]
  have hr : reflexivityApplied "y" ∈ (reflexivityApplied "x").renamings "y" := by decide +kernel
  exact ⟨hw, by decide +kernel,
    elaborate_renamed_binder hw (by decide +kernel) hfresh hr rfl, by decide +kernel⟩

end Elaboration

end Pinpoint
