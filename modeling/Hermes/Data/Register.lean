import Hermes.Data.Arrangement

/-!
# What a register holds after a sequence of operations

Some of the operations write to the register; it holds what the last of them has written.
-/

namespace Hermes.Register

open Arrangement List

variable {α β V : Type*}

/-- What the register holds after some operations, where `writes` tells what an operation
writes if it is a write. -/
def content (writes : α → Option V) (initial : V) (ops : List α) : V :=
  ops.foldl (fun held op => (writes op).getD held) initial

variable {writes : α → Option V} {initial v : V} {ops front back : List α} {w : α}

@[simp]
theorem content_cons {op : α} :
    content writes initial (op :: ops) = content writes ((writes op).getD initial) ops :=
  rfl

theorem content_append :
    content writes initial (front ++ back) = content writes (content writes initial front) back :=
  foldl_append

/-- The register keeps its value if that is the only one that is written. -/
theorem content_eq_initial (same : ∀ x ∈ ops, ∀ v', writes x = some v' → v' = initial) :
    content writes initial ops = initial := by
  induction ops with
  | nil => rfl
  | cons op rest ih =>
    have kept : (writes op).getD initial = initial := by
      cases written : writes op with
      | none => rfl
      | some v' => exact same op mem_cons_self v' written
    rw [content_cons, kept]
    exact ih fun x mem => same x (mem_cons_of_mem op mem)

/-- In the order of some points, the register holds what a write has written if nothing else
is written from there on. -/
theorem content_eq_written [LinearOrder β] {point : α → β} {g : α}
    (ascending : (ops ++ g :: back).Pairwise fun a b => point a ≤ point b)
    (mem : w ∈ ops ++ g :: back) (lower : point w < point g) (written : writes w = some v)
    (same : ∀ x ∈ ops, point w ≤ point x → point x ≤ point g → ∀ v', writes x = some v' → v' = v) :
    content writes initial ops = v := by
  obtain ⟨front, rest, rfl⟩ := append_of_mem (mem_before_of_lt ascending mem lower)
  rw [content_append, content_cons, written]
  refine content_eq_initial fun x after => ?_
  have mem : x ∈ front ++ w :: rest := mem_append_right front (mem_cons_of_mem w after)
  have lower := rel_after (pairwise_append.mp ascending).1 after
  exact same x mem lower (rel_before (r := fun a b => point a ≤ point b) ascending mem)

/-- There is a last write, or none at all. -/
theorem content_cases (writes : α → Option V) (initial : V) (ops : List α) :
    (∀ x ∈ ops, writes x = none) ∧ content writes initial ops = initial ∨
      ∃ front w back, ops = front ++ w :: back ∧ (∀ x ∈ back, writes x = none) ∧
        writes w = some (content writes initial ops) := by
  induction ops using reverseRecOn with
  | nil => exact .inl ⟨fun x mem => (nomatch mem), rfl⟩
  | append_singleton ops op ih =>
    have step : content writes initial (ops ++ [op]) =
        (writes op).getD (content writes initial ops) := content_append
    cases written : writes op with
    | some v =>
      exact .inr ⟨ops, op, [], rfl, fun x mem => (nomatch mem), by rw [step, written]; rfl⟩
    | none =>
      rw [written] at step
      rw [step]
      rcases ih with ⟨unwritten, kept⟩ | ⟨front, w, back, rfl, unwritten, last⟩
      · refine .inl ⟨?_, kept⟩
        rw [forall_mem_append, forall_mem_singleton]
        exact ⟨unwritten, written⟩
      · refine .inr ⟨front, w, back ++ [op], append_assoc _ _ _, ?_, last⟩
        rw [forall_mem_append, forall_mem_singleton]
        exact ⟨unwritten, written⟩

theorem content_map {f : β → α} {writes' : β → Option V} {ops : List β}
    (same : ∀ x ∈ ops, writes (f x) = writes' x) :
    content writes initial (ops.map f) = content writes' initial ops := by
  induction ops generalizing initial with
  | nil => rfl
  | cons op rest ih =>
    rw [map_cons, content_cons, same op mem_cons_self]
    exact ih fun x mem => same x (mem_cons_of_mem op mem)

theorem forall_splits_cons {P : List α → α → Prop} {op : α} {rest : List α} :
    (∀ front g back, op :: rest = front ++ g :: back → P front g) ↔
      P [] op ∧ ∀ front g back, rest = front ++ g :: back → P (op :: front) g := by
  constructor
  · intro all
    refine ⟨all [] op rest rfl, fun front g back split => ?_⟩
    exact all (op :: front) g back (congrArg (op :: ·) split)
  · rintro ⟨head, tail⟩ front g back split
    cases front with
    | nil =>
      cases split
      exact head
    | cons first front =>
      cases split
      exact tail front g back rfl

end Hermes.Register
