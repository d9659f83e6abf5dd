/-
How a reading is put together.

The meaning of a written term is put together from those of its parts, in one of
seven ways.  `Reading` lists them, whatever context the parts are read in, and
counts the binders that are opened.  So what all readings have in common is
proved once for each of the ways, by induction on `Reading`.

* `elaborate_reading` — the meaning of every written term is a reading.
-/
import Mathlib.Algebra.GroupWithZero.Nat
import Pinpoint.Elaboration

namespace Pinpoint

/-! ### Binders of a text -/

namespace Surface

mutual

/-- How many variables a written term binds. -/
def Term.binderCount : Term → Nat
  | .ident .. | .prop _ | .type _ | .nat .. | .str .. => 0
  | .paren _ e => e.binderCount
  | .app _ head args => args.binderCount + head.binderCount
  | .arrow _ dom cod => dom.binderCount + cod.binderCount
  | .pi _ binders body | .lam _ binders body => binders.binderCount + body.binderCount
  | .binary _ _ lhs rhs => lhs.binderCount + rhs.binderCount

def Args.binderCount : Args → Nat
  | .one a => a.binderCount
  | .cons a rest => a.binderCount + rest.binderCount

def Binders.binderCount : Binders → Nat
  | .one _ type => type.binderCount + 1
  | .cons _ type rest => type.binderCount + 1 + rest.binderCount

end

theorem Term.binderCount_unparen : ∀ t : Term, t.unparen.binderCount = t.binderCount
  | .paren _ e => by rw [unparen, binderCount, binderCount_unparen e]
  | .ident .. | .prop _ | .type _ | .nat .. | .str .. | .app .. | .lam .. | .pi .. | .arrow ..
  | .binary .. => rfl

end Surface

namespace Elaboration

/-- An argument: how it is read, and how many binders are opened for that. -/
structure Part where
  opened : Nat
  read : LocalContext → ElabM Expr

/-- The ways to read a term, each with the number of binders that are opened. -/
inductive Reading (env : Environment) (fuel : Nat) : Nat → (LocalContext → ElabM Expr) → Prop
  | atom {e : Expr} (he : e = .prop ∨ e = .type ∨ ∃ v, e = .lit v) :
    Reading env fuel 0 fun _ => pure e
  | name (text : String) {args : List Part}
    (hargs : ∀ a ∈ args, Reading env fuel a.opened a.read) :
    Reading env fuel (args.map Part.opened).sum fun Γ => do
      let as ← args.mapM fun a => a.read Γ
      let head ← resolve env fuel Γ text as
      return .mkApp head as
  | app {args : List Part} {k : Nat} {head : LocalContext → ElabM Expr}
    (hargs : ∀ a ∈ args, Reading env fuel a.opened a.read) (hhead : Reading env fuel k head) :
    Reading env fuel ((args.map Part.opened).sum + k) fun Γ => do
      let as ← args.mapM fun a => a.read Γ
      let f ← head Γ
      return .mkApp f as
  | arrow {k l : Nat} {dom cod : LocalContext → ElabM Expr} (hdom : Reading env fuel k dom)
    (hcod : Reading env fuel l cod) : Reading env fuel (k + l) fun Γ => do
      let d ← dom Γ
      let c ← cod Γ
      return .arrow d c
  | binder {mk : BinderInfo → Expr → Expr → Expr} (hmk : mk = .pi ∨ mk = .lam) (text : String)
    {k l : Nat} {type inside : LocalContext → ElabM Expr} (htype : Reading env fuel k type)
    (hinside : Reading env fuel l inside) : Reading env fuel (k + 1 + l) fun Γ => do
      let T ← type Γ
      openBinder env fuel mk Γ text T inside
  | operation (op : Operator) {k l : Nat} {lhs rhs : LocalContext → ElabM Expr}
    (hlhs : Reading env fuel k lhs) (hrhs : Reading env fuel l rhs) :
    Reading env fuel (k + l) fun Γ => do
      let a ← lhs Γ
      let b ← rhs Γ
      operation env fuel Γ op a b

variable {env : Environment} {fuel : Nat}

/-- A name without arguments. -/
theorem Reading.ident (text : String) : Reading env fuel 0 fun Γ => resolve env fuel Γ text [] := by
  have h : Reading env fuel _ _ := .name text (List.forall_mem_nil _)
  simpa using h

mutual

/-- The meaning of a written term is a reading, in which no more binders are
opened than are written. -/
theorem elaborate_reading :
    ∀ t : Surface.Term, Reading env fuel t.binderCount fun Γ => elaborate env fuel Γ t
  | .ident _ text => .ident text
  | .prop _ => .atom (.inl rfl)
  | .type _ => .atom (.inr (.inl rfl))
  | .nat _ n => .atom (.inr (.inr ⟨.nat n, rfl⟩))
  | .str _ s => .atom (.inr (.inr ⟨.str s, rfl⟩))
  | .paren _ e => elaborate_reading e
  | .app _ head args => by
    obtain ⟨parts, hparts, hcount, hargs⟩ := elaborateArgs_reading args
    have hhead := Surface.Term.binderCount_unparen head
    rw [Surface.Term.binderCount, ← hcount]
    simp only [elaborate, hargs]
    -- a head that is a name is resolved with its arguments at hand
    split
    · rename_i text hname
      rw [hname] at hhead
      rw [← hhead]
      exact .name text hparts
    · exact .app hparts (elaborate_reading head)
  | .arrow _ dom cod => .arrow (elaborate_reading dom) (elaborate_reading cod)
  | .pi _ binders body => elaborateBinders_reading (.inl rfl) (elaborate_reading body) binders
  | .lam _ binders body => elaborateBinders_reading (.inr rfl) (elaborate_reading body) binders
  | .binary _ op lhs rhs => .operation op (elaborate_reading lhs) (elaborate_reading rhs)

theorem elaborateArgs_reading : ∀ args : Surface.Args, ∃ parts : List Part,
    (∀ a ∈ parts, Reading env fuel a.opened a.read) ∧
    (parts.map Part.opened).sum = args.binderCount ∧
    ∀ Γ, elaborateArgs env fuel Γ args = parts.mapM fun a => a.read Γ
  | .one a => ⟨[⟨_, _⟩], by simpa using elaborate_reading a, by simp [Surface.Args.binderCount],
      fun Γ => by simp [elaborateArgs]⟩
  | .cons a rest => by
    obtain ⟨parts, hparts, hcount, hrest⟩ := elaborateArgs_reading rest
    refine ⟨⟨_, fun Γ => elaborate env fuel Γ a⟩ :: parts,
      List.forall_mem_cons.mpr ⟨elaborate_reading a, hparts⟩, ?_, fun Γ => ?_⟩
    · simp [hcount, Surface.Args.binderCount]
    · simp [elaborateArgs, hrest]

theorem elaborateBinders_reading {mk : BinderInfo → Expr → Expr → Expr}
    (hmk : mk = .pi ∨ mk = .lam) {k : Nat} {body : LocalContext → ElabM Expr}
    (hbody : Reading env fuel k body) : ∀ binders : Surface.Binders,
      Reading env fuel (binders.binderCount + k)
        fun Γ => elaborateBinders env fuel mk body Γ binders
  | .one b type => .binder hmk b.name (elaborate_reading type) hbody
  | .cons b type rest => by
    rw [Surface.Binders.binderCount, Nat.add_assoc (_ + 1)]
    exact .binder hmk b.name (elaborate_reading type) (elaborateBinders_reading hmk hbody rest)

end

end Elaboration

end Pinpoint
