import Panuti.Pcrutils.Streams

/-! `head`: the first lines of the in stream, which may end inside of what a read hands over. -/

namespace Panuti.Pcrutils

/-- The scan of a chunk for the newline of the last line: how much of the chunk is to be written,
and how many lines there are then.
-/
def headScan (want lines : Nat) : Bytes → Nat × Nat
  | [] => (0, lines)
  | c :: rest =>
      if c = NEWLINE then
        if lines + 1 = want then (1, lines + 1)
        else ((headScan want (lines + 1) rest).1 + 1, (headScan want (lines + 1) rest).2)
      else ((headScan want lines rest).1 + 1, (headScan want lines rest).2)

/-- The loop of `head`: what it offers to each of its out streams. -/
def headLoop (want lines : Nat) : List Bytes → List Bytes
  | [] => []
  | chunk :: reads =>
      let scan := if want ≤ lines then (0, lines) else headScan want lines chunk
      let offer := if 0 < scan.1 then [chunk.take scan.1] else []
      if want ≤ scan.2 then offer else offer ++ headLoop want scan.2 reads

/-- `head`: what each of the out streams that it writes to ends up with. -/
def head (want : Nat) (onlyOut0 : Bool) (outs : List OutStream) (in0 : Reads) : List Bytes :=
  (written onlyOut0 outs).map fun out => out.delivered 0 (headLoop want 0 in0.chunks)

-- What is offered

def cutOff : (size : Nat) → List Bytes → List Bytes
  | _, [] => []
  | size, chunk :: chunks =>
      if size = 0 then [] else chunk.take size :: cutOff (size - chunk.length) chunks

theorem cutOff_flatten (size : Nat) (chunks : List Bytes)
    : (cutOff size chunks).flatten = chunks.flatten.take size := by
  induction chunks generalizing size with
  | nil => rw [cutOff, List.flatten_nil, List.take_nil]
  | cons chunk chunks ih =>
      rw [cutOff]
      split
      next none' => rw [none', List.take_zero, List.flatten_nil]
      next => rw [List.flatten_cons, List.flatten_cons, ih, List.take_append]

theorem cutOff_zero (chunks : List Bytes) : cutOff 0 chunks = [] := by
  cases chunks with
  | nil => rfl
  | cons chunk chunks => rw [cutOff, if_pos rfl]

theorem headScan_eq {want lines : Nat} (more : lines < want) (chunk : Bytes)
    : headScan want lines chunk
      = ((upTo (want - lines) chunk).length, min want (lines + chunk.count NEWLINE)) := by
  induction chunk generalizing lines with
  | nil =>
      obtain ⟨left, rfl⟩ := Nat.exists_eq_add_of_lt more
      rw [headScan, (by omega : lines + left + 1 - lines = left + 1), upTo, List.count_nil,
        Nat.add_zero, Nat.min_eq_right (by omega)]
      rfl
  | cons c rest ih =>
      obtain ⟨left, rfl⟩ := Nat.exists_eq_add_of_lt more
      rw [headScan, (by omega : lines + left + 1 - lines = left + 1), upTo]
      by_cases newline : c = NEWLINE
      · rw [if_pos newline, if_pos newline, newline, List.count_cons_self]
        by_cases done : lines + 1 = lines + left + 1
        · obtain rfl : left = 0 := by omega
          rw [if_pos done, upTo]
          refine Prod.ext rfl ?_
          change lines + 1 = min (lines + 0 + 1) _
          omega
        · rw [if_neg done, ih (by omega), (by omega : lines + left + 1 - (lines + 1) = left)]
          refine Prod.ext rfl ?_
          change min _ _ = min _ _
          omega
      · rw [if_neg newline, if_neg newline, List.count_cons_of_ne newline, ih more,
          (by omega : lines + left + 1 - lines = left + 1)]
        rfl

theorem headLoop_eq {want lines : Nat} {chunks : List Bytes} (more : lines < want)
    (some' : ∀ chunk ∈ chunks, chunk ≠ [])
    : headLoop want lines chunks
      = cutOff (upTo (want - lines) chunks.flatten).length chunks := by
  induction chunks generalizing lines with
  | nil => rfl
  | cons chunk chunks ih =>
      have rest := fun lines (more : lines < want) => ih more
        fun other member => some' other (List.mem_cons_of_mem _ member)
      obtain ⟨c, tail, rfl⟩ := List.exists_cons_of_ne_nil (some' chunk List.mem_cons_self)
      have starts : 0 < (upTo (want - lines) (c :: tail)).length := by
        obtain ⟨left, rfl⟩ := Nat.exists_eq_add_of_lt more
        rw [(by omega : lines + left + 1 - lines = left + 1), upTo]
        exact Nat.succ_pos _
      have inside := (upTo_take (want - lines) (c :: tail)).length_le
      rw [headLoop, if_neg (Nat.not_le.mpr more), headScan_eq more, if_pos starts,
        List.flatten_cons, cutOff]
      by_cases enough : want - lines ≤ (c :: tail).count NEWLINE
      · have done : want ≤ min want (lines + (c :: tail).count NEWLINE) := by omega
        rw [if_pos done, upTo_append_of_le enough, if_neg (Nat.ne_of_gt starts),
          Nat.sub_eq_zero_of_le inside, cutOff_zero]
      · have few : (c :: tail).count NEWLINE < want - lines := Nat.not_le.mp enough
        have next : min want (lines + (c :: tail).count NEWLINE)
            = lines + (c :: tail).count NEWLINE := by omega
        have whole := upTo_of_lt few
        rw [whole] at starts ⊢
        have all : (c :: tail).take ((c :: tail)
            ++ upTo (want - lines - (c :: tail).count NEWLINE) chunks.flatten).length
            = c :: tail := List.take_of_length_le (by rw [List.length_append]; omega)
        have size : ((c :: tail)
            ++ upTo (want - lines - (c :: tail).count NEWLINE) chunks.flatten).length ≠ 0 := by
          rw [List.length_append]
          omega
        rw [next, if_neg (by omega), rest _ (by omega), upTo_append_of_lt few, if_neg size, all,
          List.take_length, List.length_append, Nat.add_sub_cancel_left, Nat.sub_sub]
        rfl

theorem head_offers (want : Nat) (in0 : Reads)
    : headLoop want 0 in0.chunks = cutOff (firstLines want in0.input).length in0.chunks := by
  cases want with
  | zero =>
      rw [firstLines, List.take_zero, List.flatten_nil, List.length_nil, cutOff_zero]
      cases in0.chunks with
      | nil => rfl
      | cons chunk chunks => rfl
  | succ want =>
      rw [headLoop_eq (Nat.succ_pos want) in0.some', firstLines_succ]
      rfl

end Panuti.Pcrutils
