import Mathlib.Data.List.Lex
import Mathlib.Order.Lattice
import Mathlib.Order.Defs.LinearOrder
import Mathlib.Tactic.Common

/-! Two lists that are walked together and joined where their keys are the same. Nothing is asked of
their order: a pair is found when the keys before it are below its own, and it is lost when one of
them is above.
-/

namespace Panuti.Library

variable {α β κ : Type} [LinearOrder κ]

/-- The entry with the smaller key is passed; entries with one key make a pair. -/
def mergeJoin (f : α → κ) (g : β → κ) : List α → List β → List (α × β)
  | [], _ => []
  | _ :: _, [] => []
  | x :: a, y :: b =>
      if f x = g y then (x, y) :: mergeJoin f g a b
      else if f x < g y then mergeJoin f g a (y :: b)
      else mergeJoin f g (x :: a) b
termination_by a b => a.length + b.length

section

variable {f : α → κ} {g : β → κ} {x : α} {y : β} {beforeToo afterToo : List β}

theorem mergeJoin_same (same : f x = g y) (a : List α) (b : List β)
    : mergeJoin f g (x :: a) (y :: b) = (x, y) :: mergeJoin f g a b := by
  rw [mergeJoin, if_pos same]

theorem mergeJoin_less (less : f x < g y) (a : List α) (b : List β)
    : mergeJoin f g (x :: a) (y :: b) = mergeJoin f g a (y :: b) := by
  rw [mergeJoin, if_neg less.ne, if_pos less]

theorem mergeJoin_greater (greater : g y < f x) (a : List α) (b : List β)
    : mergeJoin f g (x :: a) (y :: b) = mergeJoin f g (x :: a) b := by
  rw [mergeJoin, if_neg greater.ne', if_neg greater.not_gt]

theorem mergeJoin_key {a : List α} {b : List β} {entry : α × β}
    (member : entry ∈ mergeJoin f g a b)
    : f entry.1 = g entry.2 := by
  fun_induction mergeJoin f g a b with
  | case1 => cases member
  | case2 => cases member
  | case3 x a y b same ih =>
      rcases List.mem_cons.mp member with rfl | member
      · exact same
      · exact ih member
  | case4 x a y b differ less ih => exact ih member
  | case5 x a y b differ notLess ih => exact ih member

theorem mergeJoin_sublist (a : List α) (b : List β)
    : ((mergeJoin f g a b).map Prod.fst).Sublist a
      ∧ ((mergeJoin f g a b).map Prod.snd).Sublist b := by
  fun_induction mergeJoin f g a b with
  | case1 b => exact ⟨List.nil_sublist _, List.nil_sublist _⟩
  | case2 x a => exact ⟨List.nil_sublist _, List.nil_sublist _⟩
  | case3 x a y b same ih => exact ⟨ih.1.cons_cons x, ih.2.cons_cons y⟩
  | case4 x a y b differ less ih => exact ⟨ih.1.cons x, ih.2⟩
  | case5 x a y b differ notLess ih => exact ⟨ih.1, ih.2.cons y⟩

theorem mergeJoin_mem {a : List α} {b : List β} {entry : α × β}
    (member : entry ∈ mergeJoin f g a b)
    : entry.1 ∈ a ∧ entry.2 ∈ b :=
  ⟨(mergeJoin_sublist a b).1.subset (List.mem_map_of_mem member),
    (mergeJoin_sublist a b).2.subset (List.mem_map_of_mem member)⟩

theorem mem_mergeJoin_of_below (same : f x = g y) {before after : List α}
    (below : ∀ u ∈ before, f u < f x) (belowToo : ∀ v ∈ beforeToo, g v < f x)
    : (x, y) ∈ mergeJoin f g (before ++ x :: after) (beforeToo ++ y :: afterToo) := by
  induction before generalizing beforeToo with
  | nil =>
      induction beforeToo with
      | nil =>
          rw [List.nil_append, List.nil_append, mergeJoin_same same]
          exact List.mem_cons_self
      | cons v beforeToo ih =>
          rw [List.nil_append, List.cons_append,
            mergeJoin_greater (belowToo v List.mem_cons_self)]
          exact ih fun w member => belowToo w (List.mem_cons_of_mem _ member)
  | cons u before ih =>
      have belowRest (w : α) (member : w ∈ before) : f w < f x :=
        below w (List.mem_cons_of_mem _ member)
      induction beforeToo with
      | nil =>
          rw [List.cons_append, List.nil_append,
            mergeJoin_less (same ▸ below u List.mem_cons_self)]
          exact ih belowRest belowToo
      | cons v beforeToo ihToo =>
          have rest (w : β) (member : w ∈ beforeToo) : g w < f x :=
            belowToo w (List.mem_cons_of_mem _ member)
          rw [List.cons_append, List.cons_append]
          rcases lt_trichotomy (f u) (g v) with less | equal | greater
          · rw [mergeJoin_less less]
            exact ih belowRest belowToo
          · rw [mergeJoin_same equal]
            exact List.mem_cons_of_mem _ (ih belowRest rest)
          · rw [mergeJoin_greater greater]
            exact ihToo rest

theorem not_mem_mergeJoin_of_above (same : f x = g y) {before after : List α}
    (onceX : x ∉ before ++ after) (onceY : y ∉ beforeToo ++ afterToo)
    (differ : ∀ u ∈ before, f u ≠ f x) (differToo : ∀ v ∈ beforeToo, g v ≠ f x)
    (shared : ∀ u ∈ before, ∀ v ∈ beforeToo, f u = g v → f u < f x)
    (above : (∃ u ∈ before, f x < f u) ∨ ∃ v ∈ beforeToo, f x < g v)
    : (x, y) ∉ mergeJoin f g (before ++ x :: after) (beforeToo ++ y :: afterToo) := by
  induction before generalizing beforeToo with
  | nil =>
      induction beforeToo with
      | nil =>
          rcases above with ⟨u, member, -⟩ | ⟨v, member, -⟩
          · cases member
          · cases member
      | cons v beforeToo ih =>
          rw [List.nil_append, List.cons_append]
          rcases lt_or_gt_of_ne (differToo v List.mem_cons_self) with less | greater
          · rw [mergeJoin_greater less]
            refine ih (fun member => onceY (List.mem_cons_of_mem _ member))
              (fun w member => differToo w (List.mem_cons_of_mem _ member)) nofun ?_
            rcases above with ⟨u, member, -⟩ | ⟨w, member, higher⟩
            · cases member
            · rcases List.mem_cons.mp member with rfl | member
              · exact absurd higher less.not_gt
              · exact Or.inr ⟨w, member, higher⟩
          · rw [mergeJoin_less greater]
            exact fun member => onceX (mergeJoin_mem member).1
  | cons u before ih =>
      have once : x ∉ before ++ after := fun member => onceX (List.mem_cons_of_mem _ member)
      have differRest (w : α) (member : w ∈ before) : f w ≠ f x :=
        differ w (List.mem_cons_of_mem _ member)
      have sharedRest (w : α) (member : w ∈ before) (v : β) (memberToo : v ∈ beforeToo)
          : f w = g v → f w < f x :=
        shared w (List.mem_cons_of_mem _ member) v memberToo
      induction beforeToo with
      | nil =>
          rw [List.cons_append, List.nil_append]
          rcases lt_or_gt_of_ne (differ u List.mem_cons_self) with less | greater
          · rw [mergeJoin_less (same ▸ less)]
            refine ih once onceY differRest nofun sharedRest ?_
            rcases above with ⟨w, member, higher⟩ | ⟨v, member, -⟩
            · rcases List.mem_cons.mp member with rfl | member
              · exact absurd higher less.not_gt
              · exact Or.inl ⟨w, member, higher⟩
            · cases member
          · rw [mergeJoin_greater (same ▸ greater)]
            exact fun member => onceY (mergeJoin_mem member).2
      | cons v beforeToo ihToo =>
          have onceRest : y ∉ beforeToo ++ afterToo :=
            fun member => onceY (List.mem_cons_of_mem _ member)
          have differTooRest (w : β) (member : w ∈ beforeToo) : g w ≠ f x :=
            differToo w (List.mem_cons_of_mem _ member)
          rw [List.cons_append, List.cons_append]
          rcases lt_trichotomy (f u) (g v) with less | equal | greater
          · rw [mergeJoin_less less]
            refine ih once onceY differRest differToo sharedRest ?_
            rcases above with ⟨w, member, higher⟩ | high
            · rcases List.mem_cons.mp member with rfl | member
              · exact Or.inr ⟨v, List.mem_cons_self, higher.trans less⟩
              · exact Or.inl ⟨w, member, higher⟩
            · exact Or.inr high
          · -- both are below the pair, so one that is above is still to come
            have low := shared u List.mem_cons_self v List.mem_cons_self equal
            rw [mergeJoin_same equal]
            intro member
            rcases List.mem_cons.mp member with here | member
            · exact onceX (List.mem_append_left _ ((Prod.mk.inj here).1 ▸ List.mem_cons_self))
            · refine ih once onceRest differRest differTooRest
                (fun w member z memberToo =>
                  sharedRest w member z (List.mem_cons_of_mem _ memberToo))
                ?_ member
              rcases above with ⟨w, member, higher⟩ | ⟨w, member, higher⟩
              · rcases List.mem_cons.mp member with rfl | member
                · exact absurd higher low.not_gt
                · exact Or.inl ⟨w, member, higher⟩
              · rcases List.mem_cons.mp member with rfl | member
                · exact absurd higher (equal ▸ low).not_gt
                · exact Or.inr ⟨w, member, higher⟩
          · rw [mergeJoin_greater greater]
            refine ihToo onceRest differTooRest
              (fun w member z memberToo =>
                shared w member z (List.mem_cons_of_mem _ memberToo)) ?_
              (fun w member z memberToo =>
                sharedRest w member z (List.mem_cons_of_mem _ memberToo))
            rcases above with high | ⟨w, member, higher⟩
            · exact Or.inl high
            · rcases List.mem_cons.mp member with rfl | member
              · exact Or.inl ⟨u, List.mem_cons_self, higher.trans greater⟩
              · exact Or.inr ⟨w, member, higher⟩

end

end Panuti.Library
