import Mathlib.Data.List.Flatten
import Panuti.Pcrutils.Streams

/-! `cmp`: two files read against each other, chunk by chunk. Its offset is an `unsigned long`, and
a difference behind byte 2^32 is reported where the count began anew.
-/

namespace Panuti.Pcrutils

-- The utility

/-- What `cmp` says on the console: nothing, that the first or the second file ended, or where the
files differ.
-/
inductive CmpReport where
  | same
  | eof (first : Bool) (off : Nat)
  | differ (off : Nat)
deriving Repr, DecidableEq

/-- What `main` returns. -/
def CmpReport.result : CmpReport → Int
  | .same => 0
  | _ => -1

def unsignedLong (value : Nat) : Nat := value % 2 ^ 32

/-- A buffer that is empty is filled by a read, if there is more. -/
def refill (buf : Bytes) (chunks : List Bytes) : Bytes × List Bytes :=
  if buf = [] then (chunks.headD [], chunks.tail) else (buf, chunks)

/-- The inner loop: where the buffers differ, as far as both go. -/
def firstDifference : (bufa bufb : Bytes) → Option Nat
  | a :: bufa, b :: bufb => if a ≠ b then some 0 else (firstDifference bufa bufb).map (· + 1)
  | _, _ => none

/-- The loop of `main`: what is left in the buffers, and what the reads will hand over. There is no
result when it needs more turns.
-/
def cmpLoop
    : (turns : Nat) → (bufa : Bytes) → (moreA : List Bytes) → (bufb : Bytes)
      → (moreB : List Bytes) → (off : Nat) → Option CmpReport
  | 0, _, _, _, _, _ => none
  | turns + 1, bufa, moreA, bufb, moreB, off =>
      let (bufa, moreA) := refill bufa moreA
      let (bufb, moreB) := refill bufb moreB
      if bufa = [] ∨ bufb = [] then
        some (if bufa.length ≠ bufb.length then .eof (bufa = []) off else .same)
      else
        match firstDifference bufa bufb with
        | some i => some (.differ (unsignedLong (off + i)))
        | none =>
            let m := min bufa.length bufb.length
            cmpLoop turns (bufa.drop m) moreA (bufb.drop m) moreB (unsignedLong (off + m))

def cmp (turns : Nat) (one two : Reads) : Option CmpReport :=
  cmpLoop turns [] one.chunks [] two.chunks 0

-- What there is to report

/-- The least offset where both have a byte and they differ. -/
structure PartAt (x y : Bytes) (n : Nat) : Prop where
  insideX : n < x.length
  insideY : n < y.length
  differ : x[n]? ≠ y[n]?
  least : ∀ i < n, x[i]? = y[i]?

/-- A report is right about two sequences. -/
def Decides (x y : Bytes) : CmpReport → Prop
  | .same => x = y
  | .eof first _ => ∃ rest ≠ [], if first then y = x ++ rest else x = y ++ rest
  | .differ off => PartAt x y off

/-- `cmp` comes to an end, with a clean exit just for equal sequences, and its report is right. -/
def Compares (one two : Reads) : Prop :=
  ∃ report, (∀ turns > one.input.length, cmp turns one two = some report)
    ∧ (report.result = 0 ↔ one.input = two.input) ∧ Decides one.input two.input report

/-- The report on two sequences, byte by byte. -/
def reportOn (off : Nat) : (x y : Bytes) → CmpReport
  | [], [] => .same
  | [], _ :: _ => .eof true off
  | _ :: _, [] => .eof false off
  | a :: x, b :: y => if a ≠ b then .differ off else reportOn (unsignedLong (off + 1)) x y

theorem unsignedLong_add (off n : Nat)
    : unsignedLong (unsignedLong (off + 1) + n) = unsignedLong (off + (n + 1)) := by
  rw [unsignedLong, unsignedLong, Nat.mod_add_mod, Nat.add_assoc, Nat.add_comm 1 n, unsignedLong]

theorem unsignedLong_lt (value : Nat) : unsignedLong value < 2 ^ 32 :=
  Nat.mod_lt _ (by decide)

variable {bufa bufb x y : Bytes} {off n : Nat}

theorem firstDifference_none (x y : Bytes) (none' : firstDifference bufa bufb = none)
    (small : off < 2 ^ 32)
    : reportOn off (bufa ++ x) (bufb ++ y)
      = reportOn (unsignedLong (off + min bufa.length bufb.length))
        (bufa.drop (min bufa.length bufb.length) ++ x)
        (bufb.drop (min bufa.length bufb.length) ++ y) := by
  have same : unsignedLong off = off := Nat.mod_eq_of_lt small
  induction bufa generalizing bufb off with
  | nil => simp [same]
  | cons a bufa ih =>
      cases bufb with
      | nil => simp [same]
      | cons b bufb =>
          rw [firstDifference] at none'
          split at none'
          next => cases none'
          next equal =>
              have rest := ih (Option.map_eq_none_iff.mp none') (unsignedLong_lt (off + 1))
                (Nat.mod_eq_of_lt (unsignedLong_lt _))
              rw [List.length_cons, List.length_cons, Nat.succ_min_succ, List.drop_succ_cons,
                List.drop_succ_cons, List.cons_append, List.cons_append, reportOn, if_neg equal,
                rest, unsignedLong_add]

theorem firstDifference_some (x y : Bytes) {i : Nat} (found : firstDifference bufa bufb = some i)
    (small : off < 2 ^ 32)
    : reportOn off (bufa ++ x) (bufb ++ y) = .differ (unsignedLong (off + i)) := by
  have same : unsignedLong off = off := Nat.mod_eq_of_lt small
  induction bufa generalizing bufb off i with
  | nil => cases found
  | cons a bufa ih =>
      cases bufb with
      | nil => cases found
      | cons b bufb =>
          rw [firstDifference] at found
          rw [List.cons_append, List.cons_append, reportOn]
          split at found
          next differ =>
              obtain rfl := Option.some.inj found
              rw [if_pos differ, Nat.add_zero, same]
          next equal =>
              obtain ⟨j, later, rfl⟩ := Option.map_eq_some_iff.mp found
              rw [if_neg equal, ih later (unsignedLong_lt (off + 1))
                (Nat.mod_eq_of_lt (unsignedLong_lt _)), unsignedLong_add]

theorem refill_spec (buf : Bytes) {chunks : List Bytes} (some' : ∀ chunk ∈ chunks, chunk ≠ [])
    : (refill buf chunks).1 ++ (refill buf chunks).2.flatten = buf ++ chunks.flatten
      ∧ (∀ chunk ∈ (refill buf chunks).2, chunk ≠ [])
      ∧ ((refill buf chunks).1 = [] → (refill buf chunks).2 = []) := by
  rw [refill]
  split
  next empty =>
      cases chunks with
      | nil => exact ⟨by rw [empty]; rfl, nofun, fun _ => rfl⟩
      | cons chunk chunks =>
          obtain ⟨here, later⟩ := List.forall_mem_cons.mp some'
          exact ⟨by rw [empty]; rfl, later, fun none' => absurd none' here⟩
  next full => exact ⟨rfl, some', fun empty => absurd empty full⟩

/-- The loop ends, and reports on what is left of both files. -/
theorem cmpLoop_spec {turns : Nat} {moreA moreB : List Bytes} (someA : ∀ chunk ∈ moreA, chunk ≠ [])
    (someB : ∀ chunk ∈ moreB, chunk ≠ []) (small : off < 2 ^ 32)
    (enough : (bufa ++ moreA.flatten).length < turns)
    : cmpLoop turns bufa moreA bufb moreB off
      = some (reportOn off (bufa ++ moreA.flatten) (bufb ++ moreB.flatten)) := by
  induction turns generalizing bufa moreA bufb moreB off with
  | zero => exact absurd enough (Nat.not_lt_zero _)
  | succ turns ih =>
      obtain ⟨wholeA, laterA, endA⟩ := refill_spec bufa someA
      obtain ⟨wholeB, laterB, endB⟩ := refill_spec bufb someB
      rw [← wholeA] at enough
      rw [← wholeA, ← wholeB, cmpLoop]
      generalize refill bufa moreA = filledA at *
      generalize refill bufb moreB = filledB at *
      obtain ⟨bufa, moreA⟩ := filledA
      obtain ⟨bufb, moreB⟩ := filledB
      dsimp only at *
      by_cases ended : bufa = [] ∨ bufb = []
      · rw [if_pos ended]
        cases bufa with
        | nil =>
            obtain rfl := endA rfl
            cases bufb with
            | nil =>
                obtain rfl := endB rfl
                rfl
            | cons => rfl
        | cons a bufa =>
            obtain rfl := ended.resolve_left (List.cons_ne_nil a bufa)
            obtain rfl := endB rfl
            rfl
      · obtain ⟨fullA, fullB⟩ := not_or.mp ended
        rw [if_neg ended]
        cases found : firstDifference bufa bufb with
        | some i => rw [firstDifference_some _ _ found small]
        | none =>
            have lengthA := List.length_pos_of_ne_nil fullA
            have lengthB := List.length_pos_of_ne_nil fullB
            dsimp only
            rw [firstDifference_none _ _ found small]
            refine ih laterA laterB (unsignedLong_lt _) ?_
            rw [List.length_append] at enough ⊢
            rw [List.length_drop]
            omega

theorem partAt_cons {a b : UInt8} (same : a = b)
    : PartAt (a :: x) (b :: y) (n + 1) ↔ PartAt x y n := by
  constructor
  · rintro ⟨insideX, insideY, differ, least⟩
    exact ⟨Nat.lt_of_succ_lt_succ insideX, Nat.lt_of_succ_lt_succ insideY, differ,
      fun i before => least (i + 1) (Nat.succ_lt_succ before)⟩
  · rintro ⟨insideX, insideY, differ, least⟩
    refine ⟨Nat.succ_lt_succ insideX, Nat.succ_lt_succ insideY, differ, fun i before => ?_⟩
    cases i with
    | zero => exact congrArg some same
    | succ i => exact least i (Nat.lt_of_succ_lt_succ before)

theorem PartAt.unique {m : Nat} (first : PartAt x y n) (second : PartAt x y m) : n = m := by
  rcases Nat.lt_trichotomy n m with less | same | more
  · exact absurd (second.least n less) first.differ
  · exact same
  · exact absurd (first.least m more) second.differ

/-- What a report says, with its offset as a word. -/
theorem reportOn_cases (x y : Bytes) (small : off < 2 ^ 32)
    : (∃ n, PartAt x y n ∧ reportOn off x y = .differ (unsignedLong (off + n)))
      ∨ (∀ n, ¬PartAt x y n) ∧ (reportOn off x y = .same ↔ x = y)
        ∧ Decides x y (reportOn off x y) := by
  have same : unsignedLong off = off := Nat.mod_eq_of_lt small
  induction x generalizing y off with
  | nil =>
      refine .inr ⟨fun n part => absurd part.insideX (Nat.not_lt_zero n), ?_⟩
      cases y with
      | nil => exact ⟨iff_of_true rfl rfl, rfl⟩
      | cons b y => exact ⟨iff_of_false nofun nofun, b :: y, List.cons_ne_nil b y, rfl⟩
  | cons a x ih =>
      cases y with
      | nil =>
          exact .inr ⟨fun n part => absurd part.insideY (Nat.not_lt_zero n),
            iff_of_false nofun nofun, a :: x, List.cons_ne_nil a x, rfl⟩
      | cons b y =>
          rw [reportOn]
          by_cases differ : a ≠ b
          · rw [if_pos differ]
            refine .inl ⟨0, ⟨Nat.succ_pos _, Nat.succ_pos _, ?_, nofun⟩, ?_⟩
            · exact fun equal => differ (Option.some.inj equal)
            · rw [Nat.add_zero, same]
          · obtain rfl := not_not.mp differ
            rw [if_neg differ]
            rcases ih y (unsignedLong_lt (off + 1)) (Nat.mod_eq_of_lt (unsignedLong_lt _)) with
              ⟨n, part, report⟩ | ⟨never, equal, decides⟩
            · exact .inl ⟨n + 1, (partAt_cons rfl).mpr part, by rw [report, unsignedLong_add]⟩
            · refine .inr ⟨fun n part => ?_, by rw [equal, List.cons_inj_right], ?_⟩
              · cases n with
                | zero => exact part.differ rfl
                | succ n => exact never n ((partAt_cons rfl).mp part)
              · generalize reportOn (unsignedLong (off + 1)) x y = report at decides
                cases report with
                | same => exact congrArg (a :: ·) decides
                | eof first off =>
                    obtain ⟨rest, some', whole⟩ := decides
                    refine ⟨rest, some', ?_⟩
                    cases first
                    · exact congrArg (a :: ·) whole
                    · exact congrArg (a :: ·) whole
                | differ off => exact absurd decides (never off)

theorem cmp_ends (one two : Reads) {turns : Nat} (enough : turns > one.input.length)
    : cmp turns one two = some (reportOn 0 one.input two.input) :=
  cmpLoop_spec one.some' two.some' (by decide) enough

theorem Compares.small {one two : Reads} (compares : Compares one two)
    (part : PartAt one.input two.input n)
    : n < 2 ^ 32 := by
  obtain ⟨report, reports, _, decides⟩ := compares
  have found := (reports _ (Nat.lt_succ_self _)).symm.trans (cmp_ends one two (Nat.lt_succ_self _))
  obtain rfl := Option.some.inj found
  have start : 0 < 2 ^ 32 := by decide
  rcases reportOn_cases one.input two.input start with ⟨m, _, report⟩ | ⟨never, _⟩
  · rw [report] at decides
    exact part.unique decides ▸ unsignedLong_lt _
  · exact absurd part (never n)

/-- `cmp` decides equality, and its report is right just if the sequences do not first differ at an
offset that an `unsigned long` cannot hold.
-/
theorem cmp_compares_iff (one two : Reads)
    : Compares one two ↔ ∀ n, PartAt one.input two.input n → n < 2 ^ 32 := by
  refine ⟨fun compares n part => compares.small part, fun small => ?_⟩
  refine ⟨_, fun turns enough => cmp_ends one two enough, ?_⟩
  have start : 0 < 2 ^ 32 := by decide
  rcases reportOn_cases one.input two.input start with ⟨n, part, report⟩ | ⟨_, same, decides⟩
  · rw [report, Nat.zero_add, unsignedLong, Nat.mod_eq_of_lt (small n part)]
    refine ⟨iff_of_false (fun clean => by cases clean) fun equal => ?_, part⟩
    exact part.differ (congrArg (·[n]?) equal)
  · refine ⟨Iff.trans ?_ same, decides⟩
    cases reportOn 0 one.input two.input <;> simp [CmpReport.result]

/-- A file of `2^32` zeros and a byte behind them. -/
def zerosThen (last : UInt8) : Reads where
  chunks := List.replicate (2 ^ 25) (List.replicate BUFSZ 0) ++ [[last]]
  some' := by
    intro chunk among
    rcases List.mem_append.mp among with zeros | one
    · rw [List.eq_of_mem_replicate zeros]
      exact List.cons_ne_nil _ _
    · rw [List.mem_singleton.mp one]
      exact List.cons_ne_nil _ _
  small := by
    intro chunk among
    rcases List.mem_append.mp among with zeros | one
    · rw [List.eq_of_mem_replicate zeros, List.length_replicate]
    · rw [List.mem_singleton.mp one]
      exact Nat.succ_le_succ (Nat.zero_le _)

theorem zerosThen_input (last : UInt8)
    : (zerosThen last).input = List.replicate (2 ^ 25 * BUFSZ) 0 ++ [last] := by
  rw [Reads.input, zerosThen, List.flatten_append, List.flatten_replicate_replicate,
    List.flatten_singleton]

theorem partAt_concat (common : Bytes) {a b : UInt8} (differ : a ≠ b)
    : PartAt (common ++ [a]) (common ++ [b]) common.length where
  insideX := by simp
  insideY := by simp
  differ := by simpa using differ
  least i before := by
    rw [List.getElem?_append_left before, List.getElem?_append_left before]

/-- Two files that differ in their last byte only, behind as many bytes as an `unsigned long` can
count.
-/
theorem cmp_long_files : ¬ Compares (zerosThen 1) (zerosThen 2) := by
  intro compares
  have part := partAt_concat (List.replicate (2 ^ 25 * BUFSZ) 0) (by decide : (1 : UInt8) ≠ 2)
  rw [← zerosThen_input, ← zerosThen_input] at part
  have small := compares.small part
  rw [List.length_replicate, BUFSZ] at small
  exact absurd small (by decide)

end Panuti.Pcrutils
