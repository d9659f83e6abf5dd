/-
The table and the order of a catalogue.

Constants are looked up in the table, and listed in the order.  Both are extended
together and only by names that are free, so they stay in step: the table has exactly
the names of the order, each once.  A catalogue in step does what the environment
does that lists its constants.

* `InStep` — a table and an order with the same names;
* `keeps_declare`, `keeps_declareAll` — declarations keep them in step, those that are
  refused too, and `atomic_declare` — a refusal changes neither;
* `InStep.find?_listing`, `InStep.size_eq` — a look-up in the listing is one in the
  table, and both have as many constants;
* `answer_declare`, `answer_declareAll` — declarations do to a catalogue what they do to
  its listing.
-/
import Mathlib.Data.List.Basic
import Mathlib.Data.List.Nodup
import Pinpoint.Proofs.Changes
import Pinpoint.Proofs.ScopedInference
import Pinpoint.Typing.Catalogue

namespace Pinpoint.Catalogue

open ChangeM

variable {k k' : Catalogue} {n m : Name} {c : Constant} {fuel : Nat} {cs : List Constant}

/-- Whether the table has the names of the order, each once, and each constant is under
its own name. -/
structure InStep (k : Catalogue) : Prop where
  nodup : k.order.Nodup
  names : (k.table.map Prod.fst).Perm k.order
  own : ∀ n c, k.get? n = some c → c.name = n

/-! ### Look-ups -/

theorem get?_isSome_iff : (k.get? n).isSome ↔ n ∈ k.table.map Prod.fst := by
  unfold get?
  rw [Option.isSome_map, List.find?_isSome, List.mem_map]
  simp only [decide_eq_true_eq]

theorem contains_iff : k.contains n = true ↔ n ∈ k.table.map Prod.fst := get?_isSome_iff

theorem inStep_empty : InStep .empty where
  nodup := List.nodup_nil
  names := .nil
  own := nofun

namespace InStep

theorem mem_order_iff (h : k.InStep) : n ∈ k.order ↔ (k.get? n).isSome := by
  rw [get?_isSome_iff, h.names.mem_iff]

theorem mem_constants_iff (h : k.InStep) : c ∈ k.constants ↔ k.get? c.name = some c := by
  unfold constants
  rw [List.mem_filterMap]
  constructor
  · rintro ⟨n, -, hc⟩
    rwa [h.own n c hc]
  · intro hc
    exact ⟨c.name, h.mem_order_iff.mpr (by rw [hc]; rfl), hc⟩

/-- The listing finds what the table has. -/
theorem find?_listing (h : k.InStep) : k.listing.find? n = k.get? n := by
  cases hfind : k.listing.find? n with
  | some d =>
    obtain rfl := Environment.name_of_find? hfind
    exact (h.mem_constants_iff.mp (List.mem_of_find?_eq_some hfind)).symm
  | none =>
    cases hget : k.get? n with
    | none => rfl
    | some c =>
      obtain rfl := h.own n c hget
      have hmem := h.mem_constants_iff.mpr hget
      exact absurd (decide_eq_true rfl) (List.find?_eq_none.mp hfind c hmem)

/-- The listing has the names in their order. -/
theorem map_name_constants (h : k.InStep) : k.constants.map Constant.name = k.order := by
  have hnames : ∀ {order : List Name}, (∀ n ∈ order, (k.get? n).isSome) →
      (order.filterMap k.get?).map Constant.name = order := by
    intro order horder
    induction order with
    | nil => rfl
    | cons n order ih =>
      obtain ⟨hn, horder⟩ := List.forall_mem_cons.mp horder
      obtain ⟨c, hc⟩ := Option.isSome_iff_exists.mp hn
      rw [List.filterMap_cons_some hc, List.map_cons, ih horder, h.own n c hc]
  exact hnames fun n => h.mem_order_iff.mp

/-- The table is as long as the listing. -/
theorem size_eq (h : k.InStep) : k.size = k.constants.length := by
  rw [← List.length_map (f := Constant.name), h.map_name_constants, ← h.names.length_eq]
  exact (List.length_map _).symm

end InStep

/-! ### One declaration -/

/-- A catalogue with one more constant, under a name that is free. -/
def add (k : Catalogue) (c : Constant) : Catalogue where
  table := (c.name, c) :: k.table.filter fun entry => entry.1 ≠ c.name
  order := k.order ++ [c.name]

theorem not_mem_of_free (hfree : k.contains c.name = false) : c.name ∉ k.table.map Prod.fst := by
  rwa [← contains_iff, Bool.not_eq_true]

/-- Nothing in the table is replaced. -/
theorem table_add (hfree : k.contains c.name = false) :
    (k.add c).table = (c.name, c) :: k.table := by
  refine congrArg _ (List.filter_eq_self.mpr fun entry hentry => decide_eq_true ?_)
  intro heq
  exact not_mem_of_free hfree (heq ▸ List.mem_map_of_mem hentry)

theorem get?_add (hfree : k.contains c.name = false) :
    (k.add c).get? n = if c.name = n then some c else k.get? n := by
  unfold get?
  rw [table_add hfree, List.find?_cons]
  by_cases hn : c.name = n <;> simp [hn]

namespace InStep

theorem add (h : k.InStep) (hfree : k.contains c.name = false) : (k.add c).InStep where
  nodup := by
    have hc : c.name ∉ k.order := by
      rw [← h.names.mem_iff]
      exact not_mem_of_free hfree
    show (k.order ++ [c.name]).Nodup
    rw [← List.concat_eq_append]
    exact h.nodup.concat hc
  names := by
    rw [table_add hfree, List.map_cons]
    exact (h.names.cons c.name).trans (List.perm_append_singleton c.name k.order).symm
  own := by
    intro n d hd
    rw [get?_add hfree] at hd
    by_cases hn : c.name = n
    · rw [if_pos hn] at hd
      exact Option.some.inj hd ▸ hn
    · rw [if_neg hn] at hd
      exact h.own n d hd

theorem listing_add (h : k.InStep) (hfree : k.contains c.name = false) :
    (k.add c).listing = k.listing.push c := by
  have hold : k.order.filterMap (k.add c).get? = k.order.filterMap k.get? := by
    refine List.filterMap_congr fun n hn => ?_
    have hne : c.name ≠ n := by
      rintro rfl
      exact not_mem_of_free hfree (h.names.mem_iff.mpr hn)
    rw [get?_add hfree, if_neg hne]
  have hnew : (k.add c).get? c.name = some c := by rw [get?_add hfree, if_pos rfl]
  show Environment.mk ((k.order ++ [c.name]).filterMap (k.add c).get?) = _
  rw [List.filterMap_append, hold, List.filterMap_cons_some hnew]
  rfl

end InStep

/-- A constant that is refused changes neither the table nor the order. -/
theorem atomic_declare (fuel : Nat) (c : Constant) : (declare fuel c).Atomic := by
  refine asks_get.bind_atomic fun k => ?_
  by_cases hname : k.contains c.name
  · rw [if_pos hname]
    exact (asks_throw _).atomic
  rw [if_neg hname]
  by_cases hloose : c.type.hasLooseBVars || c.value.any Expr.hasLooseBVars
  · rw [if_pos hloose]
    exact (asks_throw _).atomic
  rw [if_neg hloose]
  exact (asks_ofQuery _).bind_atomic fun _ =>
    ((neverFails_modify _).bind fun _ => neverFails_modify _).atomic

/-- A declaration adds a constant to the catalogue exactly if it adds it to the listing,
and is refused for the same reason otherwise. -/
theorem answer_declare (h : k.InStep) :
    (declare fuel c).answer k = (k.listing.declare fuel c).map fun r =>
      match r with
      | .ok _ => (.ok (), k.add c)
      | .error e => (.error e, k) := by
  have hname : k.listing.contains c.name = k.contains c.name := by
    unfold Environment.contains contains
    rw [h.find?_listing]
  unfold declare Environment.declare
  rw [answer_bind, hname]
  show ChangeM.answer (if k.contains c.name then _ else _) k = _
  by_cases hname : k.contains c.name
  · rw [if_pos hname, if_pos hname]
    rfl
  rw [if_neg hname, if_neg hname]
  by_cases hloose : c.type.hasLooseBVars || c.value.any Expr.hasLooseBVars
  · rw [if_pos hloose, if_pos hloose]
    rfl
  rw [if_neg hloose, if_neg hloose, answer_bind, answer_ofQuery]
  show Option.bind (Option.map _ (k.listing.checkConstant fuel c).runFresh) _ = _
  rcases (k.listing.checkConstant fuel c).runFresh with _ | _ | _ <;> rfl

theorem contains_eq_false_of_declare {env : Environment} (h : k.InStep)
    (hc : k.listing.declare fuel c = some (.ok env)) :
    k.contains c.name = false ∧ env = (k.add c).listing := by
  obtain ⟨hname, rfl, -⟩ := Environment.declare_eq_ok hc
  have hfree : k.contains c.name = false := by
    unfold contains
    rw [← h.find?_listing]
    simpa [Environment.contains] using hname
  exact ⟨hfree, (h.listing_add hfree).symm⟩

/-- The catalogue to which a declaration leads. -/
theorem run_outcome_declare (h : k.InStep) :
    ((declare fuel c).outcome k).run =
      (k.listing.declare fuel c).map (Except.map fun _ => k.add c) := by
  rw [run_outcome, answer_declare h, Option.map_map]
  refine congrArg (Option.map · _) (funext fun r => ?_)
  cases r <;> rfl

/-- A declaration that is accepted adds the constant, in step, to the catalogue and to its
listing. -/
theorem outcome_declare_eq_ok (h : k.InStep)
    (hc : ((declare fuel c).outcome k).run = some (.ok k')) :
    k.listing.declare fuel c = some (.ok k'.listing) ∧ k'.InStep ∧ k' = k.add c := by
  rw [run_outcome_declare h] at hc
  obtain ⟨_ | env, hdeclare, hc⟩ := Option.map_eq_some_iff.mp hc
  · cases hc
  · obtain rfl := Except.ok.inj hc
    obtain ⟨hfree, rfl⟩ := contains_eq_false_of_declare h hdeclare
    exact ⟨hdeclare, h.add hfree, rfl⟩

/-- A declaration keeps the table and the order in step. -/
theorem keeps_declare (fuel : Nat) (c : Constant) : (declare fuel c).Keeps InStep := by
  intro k r k' h hk
  rw [answer_declare hk] at h
  obtain ⟨_ | env, hdeclare, h⟩ := Option.map_eq_some_iff.mp h
  · obtain ⟨-, rfl⟩ := Prod.mk.inj h
    exact hk
  · obtain ⟨-, rfl⟩ := Prod.mk.inj h
    exact hk.add (contains_eq_false_of_declare hk hdeclare).1

/-! ### All declarations -/

theorem keeps_declareAll (fuel : Nat) (cs : List Constant) :
    (declareAll fuel cs).Keeps InStep := by
  induction cs with
  | nil => exact (asks_pure ()).keeps
  | cons c cs ih => exact (keeps_declare fuel c).bind fun _ => ih

/-- Declarations do to the listing of a catalogue what they do to an environment. -/
theorem answer_declareAll (h : k.InStep) :
    ((declareAll fuel cs).answer k).map (fun p => (p.2.listing, p.1)) =
      k.listing.declareAll fuel cs := by
  induction cs generalizing k with
  | nil => rfl
  | cons c cs ih =>
    rw [declareAll, answer_bind, answer_declare h, Environment.declareAll]
    rcases hc : k.listing.declare fuel c with _ | e | env
    · rfl
    · rfl
    · obtain ⟨hfree, rfl⟩ := contains_eq_false_of_declare h hc
      exact ih (h.add hfree)

/-- The catalogue to which declarations lead, if all of them are accepted. -/
theorem answer_declareAll_of_ok {env : Environment} (h : k.InStep)
    (hcs : k.listing.declareAll fuel cs = some (env, .ok ())) :
    (declareAll fuel cs).answer k = some (.ok (), cs.foldl add k) ∧
      (cs.foldl add k).InStep ∧ (cs.foldl add k).listing = env := by
  induction cs generalizing k with
  | nil =>
    obtain ⟨rfl, -⟩ := Prod.mk.inj (Option.some.inj hcs)
    exact ⟨rfl, h, rfl⟩
  | cons c cs ih =>
    obtain ⟨_ | env₁, hc, hcs⟩ := Option.bind_eq_some_iff.mp hcs
    · cases (Prod.mk.inj (Option.some.inj hcs)).2
    · obtain ⟨hfree, rfl⟩ := contains_eq_false_of_declare h hc
      rw [declareAll, answer_bind, answer_declare h, hc]
      exact ih (h.add hfree) hcs

end Pinpoint.Catalogue
