import Panuti.Pcrutils.Seq

/-! What the utilities that work on lines have in common at their outs: they hand one row after
another to `pcr_output`, and stop when a stream does not take it.
-/

namespace Panuti.Pcrutils

open Panuti.Pcrutils.Seq

/-- The loop over the rows, each of which goes out on its own. -/
def outputEach (sinks : List Sink) (onlyOut0 : Bool) : (rows : List Bytes) → List Sink × Bool
  | [] => (sinks, true)
  | row :: rows =>
      let done := pcrOutput sinks row onlyOut0
      if done.2 then outputEach done.1 onlyOut0 rows else done

/-- The out streams that are not written to. -/
def unwritten (onlyOut0 : Bool) (outs : List OutStream) : List OutStream :=
  if onlyOut0 then outs.drop 1 else []

/-- The out streams that are written to were given some bytes, and the others nothing. -/
def Wrote (onlyOut0 : Bool) (bytes : Bytes) (outs : List OutStream) (sinks : List Sink) : Prop :=
  ∃ front, List.Forall₂ (Given bytes) (written onlyOut0 outs) front
    ∧ sinks = front ++ (unwritten onlyOut0 outs).map Sink.fresh

theorem wrote_fresh (onlyOut0 : Bool) (outs : List OutStream)
    : Wrote onlyOut0 [] outs (outs.map Sink.fresh) := by
  refine ⟨_, given_fresh (written onlyOut0 outs), ?_⟩
  rw [written, unwritten, ← List.map_append]
  cases onlyOut0
  · exact congrArg _ (List.append_nil outs).symm
  · exact congrArg _ (List.take_append_drop 1 outs).symm

variable {onlyOut0 : Bool} {outs : List OutStream} {sinks : List Sink}

theorem Wrote.output {bytes : Bytes} (wrote : Wrote onlyOut0 bytes outs sinks) (buf : Bytes)
    : ∃ later, pcrOutput sinks buf onlyOut0 = (later, true)
        ∧ Wrote onlyOut0 (bytes ++ buf) outs later := by
  obtain ⟨front, given, rfl⟩ := wrote
  obtain ⟨later, done, after⟩ := given_output given buf
  refine ⟨later ++ (unwritten onlyOut0 outs).map Sink.fresh, ?_, later, after, rfl⟩
  cases onlyOut0 with
  | false =>
      rw [unwritten, if_neg Bool.false_ne_true, List.map_nil, List.append_nil, List.append_nil]
      exact done
  | true =>
      obtain rfl : (pcrOutput front buf false).1 = later := congrArg Prod.fst done
      rw [written, if_pos rfl] at given
      cases outs with
      | nil =>
          cases given
          rfl
      | cons out outs =>
          obtain ⟨sink, rest, one, none', rfl⟩ := List.forall₂_cons_left_iff.mp given
          cases none'
          have all : (pcrOutput [sink] buf false).2 = true := congrArg Prod.snd done
          exact Prod.ext rfl all

theorem Wrote.outputEach {bytes : Bytes} (wrote : Wrote onlyOut0 bytes outs sinks)
    (rows : List Bytes)
    : ∃ later, outputEach sinks onlyOut0 rows = (later, true)
        ∧ Wrote onlyOut0 (bytes ++ rows.flatten) outs later := by
  induction rows generalizing bytes sinks with
  | nil => exact ⟨sinks, rfl, by rwa [List.flatten_nil, List.append_nil]⟩
  | cons row rows ih =>
      obtain ⟨later, done, after⟩ := wrote.output row
      obtain ⟨last, others, ends⟩ := ih after
      refine ⟨last, ?_, by rwa [List.flatten_cons, ← List.append_assoc]⟩
      rw [Pcrutils.outputEach, done]
      exact others

theorem Wrote.bytes_eq {one two : Bytes} {out : OutStream}
    (first : Wrote onlyOut0 one (out :: outs) sinks)
    (second : Wrote onlyOut0 two (out :: outs) sinks)
    : one = two := by
  obtain ⟨front, given, rfl⟩ := first
  obtain ⟨others, givenToo, same⟩ := second
  have some' : written onlyOut0 (out :: outs) = out :: if onlyOut0 then [] else outs := by
    cases onlyOut0 <;> rfl
  rw [some'] at given givenToo
  cases given with
  | cons here _ =>
      cases givenToo with
      | cons there _ =>
          rw [← here.2, ← there.2, (List.cons.inj same).1]

theorem flatMap_inj {α : Type} {rows : List α} {f g : α → Bytes}
    (long : ∀ row ∈ rows, (f row).length = (g row).length) (same : rows.flatMap f = rows.flatMap g)
    : ∀ row ∈ rows, f row = g row := by
  induction rows with
  | nil => exact nofun
  | cons row rows ih =>
      rw [List.flatMap_cons, List.flatMap_cons] at same
      obtain ⟨first, rest⟩ := List.append_inj same (long row List.mem_cons_self)
      intro other among
      rcases List.mem_cons.mp among with rfl | later
      · exact first
      · exact ih (fun row among => long row (List.mem_cons_of_mem _ among)) rest other later

end Panuti.Pcrutils
