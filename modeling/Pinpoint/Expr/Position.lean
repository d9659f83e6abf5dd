/-
Positions inside terms.

A path is the list of steps from the root of a term to one of its subterms.
Metadata takes no step of its own, so a path found in a term is valid in the
same term with more or less metadata.

`subterm?` reads a position, `replaceAt?` writes it, and `abstractAt?` turns
it into the variable of a new binder around the whole term.
-/
import Pinpoint.Expr.Binding

namespace Pinpoint

/-- One step into a term. -/
inductive Step where
  /-- To the function of an application. -/
  | appFn
  /-- To the argument of an application. -/
  | appArg
  /-- To the type of a binder. -/
  | binderType
  /-- To the body of a binder. -/
  | binderBody
  /-- To the type of a definition. -/
  | letType
  /-- To the value of a definition. -/
  | letValue
  /-- To the body of a definition. -/
  | letBody
deriving DecidableEq, Repr

/-- The steps from the root to a subterm. -/
abbrev Path := List Step

/-- A step as it is printed. -/
def Step.render : Step → String
  | .appFn => "fn"
  | .appArg => "arg"
  | .binderType => "type"
  | .binderBody => "body"
  | .letType => "let-type"
  | .letValue => "let-value"
  | .letBody => "let-body"

/-- The step of a word. -/
def Step.ofWord? (w : String) : Option Step :=
  [appFn, appArg, binderType, binderBody, letType, letValue, letBody].find? fun s => s.render = w

/-- The word of every step is read as that step. -/
@[simp] theorem Step.ofWord?_render (s : Step) : Step.ofWord? s.render = some s := by
  cases s <;> decide

/-- The steps with slashes between them; a point for the root. -/
def Path.render (p : Path) : String :=
  if p.isEmpty then "." else String.intercalate "/" (p.map Step.render)

namespace Expr

/-- The subterm at a position, without its outer metadata. -/
def subterm? : Expr → Path → Option Expr
  | .mdata _ e, p => e.subterm? p
  | e, [] => some e
  | .app f _, .appFn :: p => f.subterm? p
  | .app _ a, .appArg :: p => a.subterm? p
  | .lam _ t _, .binderType :: p => t.subterm? p
  | .lam _ _ b, .binderBody :: p => b.subterm? p
  | .pi _ t _, .binderType :: p => t.subterm? p
  | .pi _ _ b, .binderBody :: p => b.subterm? p
  | .letE t _ _, .letType :: p => t.subterm? p
  | .letE _ v _, .letValue :: p => v.subterm? p
  | .letE _ _ b, .letBody :: p => b.subterm? p
  | _, _ => none

/-- The term with the subterm at a position replaced by `make d`, where `d`
is the start plus the number of binders that the path crosses. -/
def replaceWith? (make : UInt32 → Expr) : Expr → Path → UInt32 → Option Expr
  | .mdata m e, p, d => (replaceWith? make e p d).map (.mdata m)
  | _, [], d => some (make d)
  | .app f a, .appFn :: p, d => (replaceWith? make f p d).map (.app · a)
  | .app f a, .appArg :: p, d => (replaceWith? make a p d).map (.app f ·)
  | .lam i t b, .binderType :: p, d => (replaceWith? make t p d).map (.lam i · b)
  | .lam i t b, .binderBody :: p, d => (replaceWith? make b p (d + 1)).map (.lam i t ·)
  | .pi i t b, .binderType :: p, d => (replaceWith? make t p d).map (.pi i · b)
  | .pi i t b, .binderBody :: p, d => (replaceWith? make b p (d + 1)).map (.pi i t ·)
  | .letE t v b, .letType :: p, d => (replaceWith? make t p d).map (.letE · v b)
  | .letE t v b, .letValue :: p, d => (replaceWith? make v p d).map (.letE t · b)
  | .letE t v b, .letBody :: p, d => (replaceWith? make b p (d + 1)).map (.letE t v ·)
  | _, _, _ => none

/-- The term with the subterm at a position replaced; the new subterm is
inserted as it is, so it should have no loose bound variable. -/
def replaceAt? (e : Expr) (p : Path) (new : Expr) : Option Expr :=
  replaceWith? (fun _ => new) e p 0

/-- The term as the body of a new binder whose variable stands at the
position. -/
def abstractAt? (e : Expr) (p : Path) : Option Expr :=
  replaceWith? .bvar (e.lift 1) p 0

/-- Metadata around a term does not change what is found in it. -/
@[simp] theorem subterm?_mdata (m : List (Name × MDataValue)) (e : Expr) (p : Path) :
    (Expr.mdata m e).subterm? p = e.subterm? p := by
  rw [subterm?]

theorem subterm?_stripMData (e : Expr) (p : Path) : e.stripMData.subterm? p = e.subterm? p := by
  induction e with
  | mdata _ _ ih => rw [subterm?_mdata, ← ih, stripMData]
  | _ => rfl

/-- The root of a term is the term without its outer metadata. -/
theorem subterm?_nil (e : Expr) : e.subterm? [] = some e.stripMData := by
  induction e with
  | mdata _ _ ih => simpa [stripMData] using ih
  | _ => simp [subterm?, stripMData]

/-- What is found at a position has no metadata around it. -/
theorem stripMData_of_subterm? {e s : Expr} {p : Path} (h : e.subterm? p = some s) :
    s.stripMData = s := by
  induction e generalizing p with
  | mdata m e ih => exact ih (by simpa using h)
  | app f a ihf iha =>
    rcases p with _ | ⟨step, p⟩
    · exact Option.some.inj h ▸ rfl
    · cases step <;> simp only [subterm?, reduceCtorEq] at h
      · exact ihf h
      · exact iha h
  | lam i t b iht ihb | pi i t b iht ihb =>
    rcases p with _ | ⟨step, p⟩
    · exact Option.some.inj h ▸ rfl
    · cases step <;> simp only [subterm?, reduceCtorEq] at h
      · exact iht h
      · exact ihb h
  | letE t v b iht ihv ihb =>
    rcases p with _ | ⟨step, p⟩
    · exact Option.some.inj h ▸ rfl
    · cases step <;> simp only [subterm?, reduceCtorEq] at h
      · exact iht h
      · exact ihv h
      · exact ihb h
  | _ =>
    rcases p with _ | ⟨step, p⟩
    · exact Option.some.inj h ▸ rfl
    · cases step <;> simp [subterm?] at h

end Expr

end Pinpoint
