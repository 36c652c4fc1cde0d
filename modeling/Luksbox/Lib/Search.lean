import Mathlib.Algebra.GroupWithZero.Nat
import Mathlib.Algebra.Order.BigOperators.Group.List
import Mathlib.Algebra.Order.Group.Nat
import Mathlib.Data.Finset.Card
import Mathlib.Data.Finset.Basic
import Mathlib.Logic.Relation

/-!
# Two graph searches with an explicit stack

Both loops pop a node, push its successors and go on until the stack is empty.
`collect` marks a node when it is pushed and returns everything it has marked;
it gives up on a node that has no successor list at all. `searchFor` marks a
node when it is popped, skips the ones it has seen, and stops as soon as the
target shows up among the successors of the node at hand.

The loops take fuel. `collect_total` and `searchFor_iff` say how much is
enough, so a caller that passes that much has an exact answer: the first
returns the nodes reachable from where it started, the second decides whether
the target is at the end of a non-empty path.
-/

namespace Luksbox.Lib

open Relation

variable {α : Type} [DecidableEq α]

/-! ## Marking on push -/

/-- Push those of the given nodes that are not marked yet, and mark them. -/
def pushFresh : List α → Finset α → List α → List α × Finset α
  | stack, seen, [] => (stack, seen)
  | stack, seen, x :: xs =>
      if x ∈ seen then pushFresh stack seen xs
      else pushFresh (x :: stack) (insert x seen) xs

def collect (succ : α → Option (List α)) : Nat → List α → Finset α → Option (Finset α)
  | _, [], seen => some seen
  | 0, _ :: _, _ => none
  | fuel + 1, x :: stack, seen =>
      match succ x with
      | none => none
      | some ys =>
          let (stack', seen') := pushFresh stack seen ys
          collect succ fuel stack' seen'

/-- One node is an edge away from another if it is among its successors. -/
def EdgeOf (succ : α → Option (List α)) (x y : α) : Prop := ∃ ys, succ x = some ys ∧ y ∈ ys

theorem pushFresh_seen {stack : List α} {seen : Finset α} {ys : List α} {y : α} :
    y ∈ (pushFresh stack seen ys).2 ↔ y ∈ seen ∨ y ∈ ys := by
  induction ys generalizing stack seen with
  | nil => simp [pushFresh]
  | cons x xs ih =>
      unfold pushFresh
      split
      · next hx =>
          rw [ih, List.mem_cons]
          constructor
          · rintro (h | h)
            · exact Or.inl h
            · exact Or.inr (Or.inr h)
          · rintro (h | rfl | h)
            · exact Or.inl h
            · exact Or.inl hx
            · exact Or.inr h
      · rw [ih, Finset.mem_insert, List.mem_cons]
        tauto

theorem mem_pushFresh_stack {stack : List α} {seen : Finset α} {ys : List α} {y : α} :
    y ∈ (pushFresh stack seen ys).1 ↔ y ∈ stack ∨ (y ∈ ys ∧ y ∉ seen) := by
  induction ys generalizing stack seen with
  | nil => simp [pushFresh]
  | cons x xs ih =>
      unfold pushFresh
      split
      · next hx =>
          rw [ih, List.mem_cons]
          constructor
          · rintro (h | h)
            · exact Or.inl h
            · exact Or.inr ⟨Or.inr h.1, h.2⟩
          · rintro (h | ⟨rfl | h, hn⟩)
            · exact Or.inl h
            · exact absurd hx hn
            · exact Or.inr ⟨h, hn⟩
      · next hx =>
          rw [ih, List.mem_cons, Finset.mem_insert, List.mem_cons]
          by_cases hyx : y = x
          · subst hyx
            simp [hx]
          · simp [hyx]

/-- Each push marks one more node, so the two numbers grow together. -/
theorem pushFresh_card {stack : List α} {seen : Finset α} {ys : List α} :
    (pushFresh stack seen ys).1.length + seen.card =
      stack.length + (pushFresh stack seen ys).2.card := by
  induction ys generalizing stack seen with
  | nil => simp [pushFresh]
  | cons x xs ih =>
      unfold pushFresh
      split
      · exact ih
      · next hx =>
          have h := @ih (x :: stack) (insert x seen)
          rw [Finset.card_insert_of_notMem hx, List.length_cons] at h
          omega

/-- What `collect` keeps: a marked node is still on the stack, or all of its
successors are marked. -/
def Explored (succ : α → Option (List α)) (stack : List α) (seen : Finset α) : Prop :=
  ∀ x ∈ seen, x ∈ stack ∨ ∃ ys, succ x = some ys ∧ ∀ y ∈ ys, y ∈ seen

theorem Explored.push {succ : α → Option (List α)} {stack : List α} {seen : Finset α} {x : α}
    {ys : List α} (hinv : Explored succ (x :: stack) seen) (hx : succ x = some ys) :
    Explored succ (pushFresh stack seen ys).1 (pushFresh stack seen ys).2 := by
  intro z hz
  by_cases hzs : z ∈ seen
  · rcases hinv z hzs with hmem | ⟨zs, hsucc, hall⟩
    · rcases List.mem_cons.mp hmem with rfl | hmem
      · exact Or.inr ⟨ys, hx, fun y hy => pushFresh_seen.mpr (Or.inr hy)⟩
      · exact Or.inl (mem_pushFresh_stack.mpr (Or.inl hmem))
    · exact Or.inr ⟨zs, hsucc, fun y hy => pushFresh_seen.mpr (Or.inl (hall y hy))⟩
  · rcases pushFresh_seen.mp hz with h | h
    · exact absurd h hzs
    · exact Or.inl (mem_pushFresh_stack.mpr (Or.inr ⟨h, hzs⟩))

theorem collect_spec {succ : α → Option (List α)} {fuel : Nat} {stack : List α}
    {seen result : Finset α} (hinv : Explored succ stack seen) (hsub : ∀ x ∈ stack, x ∈ seen)
    (h : collect succ fuel stack seen = some result) :
    (∀ x ∈ seen, x ∈ result) ∧ (∀ x ∈ result, ∃ y ∈ seen, ReflTransGen (EdgeOf succ) y x) ∧
      Explored succ [] result := by
  induction fuel generalizing stack seen with
  | zero =>
      cases stack with
      | nil =>
          injection h with h
          subst h
          exact ⟨fun _ hx => hx, fun x hx => ⟨x, hx, .refl⟩, hinv⟩
      | cons x stack => cases h
  | succ fuel ih =>
      cases stack with
      | nil =>
          injection h with h
          subst h
          exact ⟨fun _ hx => hx, fun x hx => ⟨x, hx, .refl⟩, hinv⟩
      | cons x stack =>
          unfold collect at h
          cases hx : succ x with
          | none => rw [hx] at h; cases h
          | some ys =>
              rw [hx] at h
              have hxs : x ∈ seen := hsub x List.mem_cons_self
              have hsub' : ∀ z ∈ (pushFresh stack seen ys).1, z ∈ (pushFresh stack seen ys).2 := by
                intro z hz
                rcases mem_pushFresh_stack.mp hz with hz | hz
                · exact pushFresh_seen.mpr (Or.inl (hsub z (List.mem_cons_of_mem _ hz)))
                · exact pushFresh_seen.mpr (Or.inr hz.1)
              obtain ⟨hge, hreach, hcl⟩ := ih (hinv.push hx) hsub' h
              refine ⟨fun z hz => hge z (pushFresh_seen.mpr (Or.inl hz)), ?_, hcl⟩
              intro z hz
              obtain ⟨y, hy, hyz⟩ := hreach z hz
              rcases pushFresh_seen.mp hy with hy | hy
              · exact ⟨y, hy, hyz⟩
              · exact ⟨x, hxs, .head ⟨ys, hx, hy⟩ hyz⟩

/-- From one node, `collect` returns exactly what can be reached from it. -/
theorem mem_collect_iff {succ : α → Option (List α)} {fuel : Nat} {root : α}
    {result : Finset α} (h : collect succ fuel [root] {root} = some result) {x : α} :
    x ∈ result ↔ ReflTransGen (EdgeOf succ) root x := by
  have hinv : Explored succ [root] {root} := by
    intro z hz
    exact Or.inl (by simpa using hz)
  obtain ⟨hge, hreach, hcl⟩ := collect_spec hinv (by simp) h
  constructor
  · intro hx
    obtain ⟨y, hy, hyx⟩ := hreach x hx
    rw [Finset.mem_singleton] at hy
    exact hy ▸ hyx
  · intro hx
    induction hx with
    | refl => exact hge root (by simp)
    | tail _ hedge ih =>
        obtain ⟨ys, hys, hmem⟩ := hedge
        rcases hcl _ ih with hnil | ⟨zs, hzs, hall⟩
        · cases hnil
        · rw [hys] at hzs
          injection hzs with hzs
          exact hall _ (hzs ▸ hmem)

/-- Enough fuel: one step for every node on the stack and every node of a
closed set that is not marked yet. -/
theorem collect_total {succ : α → Option (List α)} {nodes : Finset α}
    (hcl : ∀ x ∈ nodes, ∃ ys, succ x = some ys ∧ ∀ y ∈ ys, y ∈ nodes)
    {fuel : Nat} {stack : List α} {seen : Finset α}
    (hst : ∀ x ∈ stack, x ∈ nodes) (hse : ∀ x ∈ seen, x ∈ nodes)
    (hf : stack.length + nodes.card ≤ fuel + seen.card) :
    ∃ result, collect succ fuel stack seen = some result := by
  induction fuel generalizing stack seen with
  | zero =>
      cases stack with
      | nil => exact ⟨seen, rfl⟩
      | cons x stack =>
          have := Finset.card_le_card (s := seen) (t := nodes) hse
          rw [List.length_cons] at hf
          omega
  | succ fuel ih =>
      cases stack with
      | nil => exact ⟨seen, rfl⟩
      | cons x stack =>
          obtain ⟨ys, hys, hall⟩ := hcl x (hst x List.mem_cons_self)
          unfold collect
          rw [hys]
          refine ih ?_ ?_ ?_
          · intro z hz
            rcases mem_pushFresh_stack.mp hz with hz | hz
            · exact hst z (List.mem_cons_of_mem _ hz)
            · exact hall z hz.1
          · intro z hz
            rcases pushFresh_seen.mp hz with hz | hz
            · exact hse z hz
            · exact hall z hz
          · have := @pushFresh_card _ _ stack seen ys
            rw [List.length_cons] at hf
            omega

/-! ## Marking on pop -/

def searchFor (succ : α → List α) (target : α) : Nat → List α → Finset α → Bool
  | _, [], _ => false
  | 0, _ :: _, _ => false
  | fuel + 1, x :: stack, seen =>
      if x ∈ seen then searchFor succ target fuel stack seen
      else if target ∈ succ x then true
      else searchFor succ target fuel ((succ x).reverse ++ stack) (insert x seen)

theorem searchFor_sound {succ : α → List α} {target : α} {fuel : Nat} {stack : List α}
    {seen : Finset α} (h : searchFor succ target fuel stack seen = true) :
    ∃ x ∈ stack, TransGen (fun x y => y ∈ succ x) x target := by
  induction fuel generalizing stack seen with
  | zero => cases stack <;> cases h
  | succ fuel ih =>
      cases stack with
      | nil => cases h
      | cons x stack =>
          unfold searchFor at h
          split at h
          · obtain ⟨y, hy, hyt⟩ := ih h
            exact ⟨y, List.mem_cons_of_mem _ hy, hyt⟩
          · split at h
            · next hx => exact ⟨x, List.mem_cons_self, .single hx⟩
            · obtain ⟨y, hy, hyt⟩ := ih h
              rcases List.mem_append.mp hy with hy | hy
              · exact ⟨x, List.mem_cons_self, .head (List.mem_reverse.mp hy) hyt⟩
              · exact ⟨y, List.mem_cons_of_mem _ hy, hyt⟩

/-- Successors still to be pushed, over the nodes of `nodes` not seen yet. -/
def pushesLeft (succ : α → List α) (nodes : List α) (seen : Finset α) : Nat :=
  ((nodes.filter (fun x => decide (x ∉ seen))).map fun x => (succ x).length).sum

theorem pushesLeft_insert_le {succ : α → List α} {nodes : List α} {seen : Finset α} {x : α} :
    pushesLeft succ nodes (insert x seen) ≤ pushesLeft succ nodes seen := by
  unfold pushesLeft
  refine (List.Sublist.map _ ?_).sum_le_sum (fun _ _ => Nat.zero_le _)
  refine List.monotone_filter_right nodes ?_
  intro y hy
  simp only [Finset.mem_insert, not_or, decide_eq_true_eq] at hy ⊢
  exact hy.2

/-- Seeing a node for the first time takes its successors off the count. -/
theorem pushesLeft_insert {succ : α → List α} {nodes : List α} {seen : Finset α} {x : α}
    (hx : x ∉ seen) (hmem : x ∈ nodes ∨ succ x = []) :
    pushesLeft succ nodes (insert x seen) + (succ x).length ≤ pushesLeft succ nodes seen := by
  rcases hmem with hmem | hnil
  · induction nodes with
    | nil => cases hmem
    | cons y nodes ih =>
        by_cases hyx : y = x
        · subst hyx
          have h1 : pushesLeft succ (y :: nodes) (insert y seen) =
              pushesLeft succ nodes (insert y seen) := by
            simp [pushesLeft]
          have h2 : pushesLeft succ (y :: nodes) seen =
              (succ y).length + pushesLeft succ nodes seen := by
            simp [pushesLeft, hx]
          have := @pushesLeft_insert_le _ _ succ nodes seen y
          omega
        · have hrest := ih ((List.mem_cons.mp hmem).resolve_left (fun h => hyx h.symm))
          by_cases hys : y ∈ seen
          · simpa [pushesLeft, hys, hyx] using hrest
          · have h1 : pushesLeft succ (y :: nodes) (insert x seen) =
                (succ y).length + pushesLeft succ nodes (insert x seen) := by
              simp [pushesLeft, hys, hyx]
            have h2 : pushesLeft succ (y :: nodes) seen =
                (succ y).length + pushesLeft succ nodes seen := by
              simp [pushesLeft, hys]
            omega
  · rw [hnil]
    exact pushesLeft_insert_le

/-- A search that comes back empty-handed has seen everything it could reach,
and the target was in none of it. -/
theorem searchFor_complete {succ : α → List α} {target : α} {nodes : List α}
    (hnodes : ∀ x, x ∈ nodes ∨ succ x = []) {fuel : Nat} {stack : List α} {seen : Finset α}
    (hinv : ∀ x ∈ seen, target ∉ succ x ∧ ∀ y ∈ succ x, y ∈ seen ∨ y ∈ stack)
    (hf : stack.length + pushesLeft succ nodes seen ≤ fuel)
    (h : searchFor succ target fuel stack seen = false) :
    ∃ all : Finset α, (∀ x ∈ seen, x ∈ all) ∧ (∀ x ∈ stack, x ∈ all) ∧
      ∀ x ∈ all, target ∉ succ x ∧ ∀ y ∈ succ x, y ∈ all := by
  induction fuel generalizing stack seen with
  | zero =>
      cases stack with
      | nil =>
          refine ⟨seen, fun _ hx => hx, by simp, ?_⟩
          intro x hx
          exact ⟨(hinv x hx).1, fun y hy => ((hinv x hx).2 y hy).resolve_right (by simp)⟩
      | cons x stack => rw [List.length_cons] at hf; omega
  | succ fuel ih =>
      cases stack with
      | nil =>
          refine ⟨seen, fun _ hx => hx, by simp, ?_⟩
          intro x hx
          exact ⟨(hinv x hx).1, fun y hy => ((hinv x hx).2 y hy).resolve_right (by simp)⟩
      | cons x stack =>
          unfold searchFor at h
          rw [List.length_cons] at hf
          split at h
          · next hx =>
              have hinv' : ∀ z ∈ seen, target ∉ succ z ∧ ∀ y ∈ succ z, y ∈ seen ∨ y ∈ stack := by
                intro z hz
                refine ⟨(hinv z hz).1, fun y hy => ?_⟩
                rcases (hinv z hz).2 y hy with hy | hy
                · exact Or.inl hy
                · rcases List.mem_cons.mp hy with rfl | hy
                  · exact Or.inl hx
                  · exact Or.inr hy
              obtain ⟨all, hse, hst, hall⟩ := ih hinv' (by omega) h
              refine ⟨all, hse, fun z hz => ?_, hall⟩
              rcases List.mem_cons.mp hz with rfl | hz
              · exact hse _ hx
              · exact hst z hz
          · next hx =>
              split at h
              · cases h
              · next ht =>
                  have hinv' : ∀ z ∈ insert x seen, target ∉ succ z ∧
                      ∀ y ∈ succ z, y ∈ insert x seen ∨ y ∈ (succ x).reverse ++ stack := by
                    intro z hz
                    rcases Finset.mem_insert.mp hz with rfl | hz
                    · exact ⟨ht, fun y hy => Or.inr
                        (List.mem_append.mpr (Or.inl (List.mem_reverse.mpr hy)))⟩
                    · refine ⟨(hinv z hz).1, fun y hy => ?_⟩
                      rcases (hinv z hz).2 y hy with hy | hy
                      · exact Or.inl (Finset.mem_insert_of_mem hy)
                      · rcases List.mem_cons.mp hy with rfl | hy
                        · exact Or.inl (Finset.mem_insert_self _ _)
                        · exact Or.inr (List.mem_append.mpr (Or.inr hy))
                  have hfuel := pushesLeft_insert hx (hnodes x)
                  obtain ⟨all, hse, hst, hall⟩ := ih hinv' (by
                    rw [List.length_append, List.length_reverse]
                    omega) h
                  refine ⟨all, fun z hz => hse z (Finset.mem_insert_of_mem hz), fun z hz => ?_, hall⟩
                  rcases List.mem_cons.mp hz with rfl | hz
                  · exact hse _ (Finset.mem_insert_self _ _)
                  · exact hst z (List.mem_append.mpr (Or.inr hz))

/-- With a step for the root and for every edge, the search is exact. -/
theorem searchFor_iff {succ : α → List α} {target root : α} {nodes : List α}
    (hnodes : ∀ x, x ∈ nodes ∨ succ x = []) {fuel : Nat}
    (hf : 1 + (nodes.map fun x => (succ x).length).sum ≤ fuel) :
    searchFor succ target fuel [root] ∅ = true ↔
      TransGen (fun x y => y ∈ succ x) root target := by
  constructor
  · intro h
    obtain ⟨x, hx, hxt⟩ := searchFor_sound h
    rw [List.mem_singleton] at hx
    exact hx ▸ hxt
  · intro hreach
    cases hres : searchFor succ target fuel [root] ∅ with
    | true => rfl
    | false =>
        have hleft : pushesLeft succ nodes ∅ = (nodes.map fun x => (succ x).length).sum := by
          simp [pushesLeft]
        obtain ⟨all, -, hst, hall⟩ := searchFor_complete hnodes (by simp)
          (by rw [hleft]; exact hf) hres
        have hin : ∀ y, TransGen (fun x y => y ∈ succ x) root y → y ≠ target ∧ y ∈ all := by
          intro y hy
          induction hy with
          | single hedge =>
              have hr := hall root (hst root List.mem_cons_self)
              exact ⟨fun he => hr.1 (he ▸ hedge), hr.2 _ hedge⟩
          | tail _ hedge ih =>
              have hb := hall _ ih.2
              exact ⟨fun he => hb.1 (he ▸ hedge), hb.2 _ hedge⟩
        exact absurd rfl (hin target hreach).1

end Luksbox.Lib
