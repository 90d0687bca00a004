import Panuti.Elf.ImagePlan

/-! The three loops over the pages of a segment: the frames that are taken, the pages that are
mapped, and the bytes that are filled in.
-/

namespace Panuti.Elf

open ByteMemory PageTable Panuti.Vmm

variable {dirs data : List Nat} {start machine after : Machine} {image : List UInt8} {seg : Segment}
  {addrSpace : Nat}

def Exhausted (machine : Machine) : Prop := ∀ page < machine.frames, machine.free page = false

theorem Exhausted.keeps (exhausted : Exhausted machine) (keeps : Keeps data machine after)
    : Exhausted after := by
  intro page below
  by_contra isFree
  have isFree : after.free page = true := by simpa using isFree
  have wasFree := keeps.taken page isFree
  rw [keeps.frames] at below
  rw [exhausted page below] at wasFree
  cases wasFree

theorem Exhausted.allocp (exhausted : Exhausted machine) (zero : machine.free 0 = false)
    : (pmmAllocp machine).1 = 0 := by
  rcases pmmAllocp_spec zero with ⟨_, failed⟩ | ⟨page, below, isFree, _, _⟩
  · rw [failed]
  · rw [exhausted page below] at isFree
    cases isFree

theorem exhausted_of_allocp (zero : machine.free 0 = false) (failed : (pmmAllocp machine).1 = 0)
    : Exhausted machine := by
  rcases pmmAllocp_spec zero with ⟨none, _⟩ | ⟨page, _, _, notZero, allocated⟩
  · exact none
  · rw [allocated] at failed
    simp only [PAGE_SIZE] at failed
    omega

-- The frames

variable {frames : List Nat} {virt phys flags p : Nat}

/-- The frames of a segment are what the next calls of the allocator hand out. -/
theorem allocFrames_placed {taken : List Nat} {left calls : Nat} (sound : machine.Sound dirs data)
    (same : machine.SameFrames (start.afterCalls calls))
    (allocates : allocFrames machine frames left = (true, taken, after))
    : taken = frames ++ (List.range' calls left).map start.handed
      ∧ after.SameFrames (start.afterCalls (calls + left))
      ∧ after.memory = machine.memory ∧ after.cr3 = machine.cr3
      ∧ (∀ page, after.free page = true → machine.free page = true)
      ∧ ((List.range' calls left).map start.handed).Nodup
      ∧ (∀ phys ∈ (List.range' calls left).map start.handed,
          phys ∉ data ∧ phys ≠ 0 ∧ machine.free (phys / 4096) = true)
      ∧ ∃ data', after.Sound dirs data'
        ∧ ∀ phys, phys ∈ data' ↔ phys ∈ (List.range' calls left).map start.handed ∨ phys ∈ data := by
  induction left generalizing machine data frames calls with
  | zero =>
      simp only [allocFrames, Prod.mk.injEq, true_and] at allocates
      obtain ⟨rfl, rfl⟩ := allocates
      exact ⟨by simp, same, rfl, rfl, fun _ isFree => isFree, by simp, by simp, data, sound, by simp⟩
  | succ left ih =>
      obtain ⟨handed, sameNext⟩ := same.next
      simp only [allocFrames] at allocates
      rcases pmmAllocp_spec sound.paged.zero with
        ⟨_, failed⟩ | ⟨page, below, isFree, notZero, allocated⟩
      · rw [failed] at allocates
        simp at allocates
      · rw [allocated] at allocates handed sameNext
        have isSome : ¬page * PAGE_SIZE = 0 := by
          simp only [PAGE_SIZE]
          omega
        simp only [if_neg isSome] at allocates
        have small := sound.small
        have soundTaken : (machine.take page).Sound dirs (page * PAGE_SIZE :: data) :=
          ⟨sound.paged.addData isFree (by omega), small, sound.current⟩
        obtain ⟨taken', sameAfter, memory, cr3, less, nodup, fresh, data', soundAfter, members⟩ :=
          ih soundTaken sameNext allocates
        have whole : page * PAGE_SIZE / 4096 = page := Nat.mul_div_cancel _ (by decide)
        have lessToo (other : Nat) (stays : (machine.take page).free other = true)
            : machine.free other = true := by
          by_cases is : other = page
          · rw [is]
            exact isFree
          · have unchanged : (machine.take page).free other = machine.free other :=
              Function.update_of_ne is _ _
            rw [← unchanged]
            exact stays
        rw [List.range'_succ, List.map_cons, ← handed]
        refine ⟨?_, ?_, memory, cr3, fun other stays => lessToo other (less other stays), ?_, ?_,
          data', soundAfter, ?_⟩
        · rw [taken', List.append_assoc]
          rfl
        · have count : calls + 1 + left = calls + (left + 1) := by omega
          rw [← count]
          exact sameAfter
        · rw [List.nodup_cons]
          refine ⟨fun member => ?_, nodup⟩
          exact (fresh _ member).1 List.mem_cons_self
        · intro phys member
          rcases List.mem_cons.mp member with rfl | inRest
          · refine ⟨(sound.paged.fresh isFree).2.1, isSome, ?_⟩
            rw [whole]
            exact isFree
          · obtain ⟨notData, some, wasFree⟩ := fresh phys inRest
            exact ⟨fun inData => notData (List.mem_cons_of_mem _ inData), some, lessToo _ wasFree⟩
        · intro phys
          rw [members, List.mem_cons, List.mem_cons]
          tauto

-- The pages

theorem user_rest {rest : List Nat} (low : USER_SPACE_BASE ≤ virt)
    (high : virt + (phys :: rest).length * PAGE_SIZE ≤ USER_SPACE_END)
    : rest = [] ∨ USER_SPACE_BASE ≤ (virt + PAGE_SIZE) % 2 ^ 32
      ∧ (virt + PAGE_SIZE) % 2 ^ 32 + rest.length * PAGE_SIZE ≤ USER_SPACE_END := by
  cases rest with
  | nil => exact Or.inl rfl
  | cons next more =>
      right
      simp only [List.length_cons, PAGE_SIZE, USER_SPACE_BASE, USER_SPACE_END] at low high ⊢
      omega

theorem mapRun_keeps (sound : machine.Sound dirs data)
    (user
      : frames = [] ∨ USER_SPACE_BASE ≤ virt
        ∧ virt + frames.length * PAGE_SIZE ≤ USER_SPACE_END)
    (maps : vmmMapRun machine virt flags frames = some after)
    : Keeps data machine after ∧ after.Sound dirs data ∧ after.cr3 = machine.cr3
      ∧ ∀ dir ∈ dirs, ∀ index, KERNEL_PDE_START ≤ index → index < 1024
        → dirEntry after.memory dir index = dirEntry machine.memory dir index := by
  induction frames generalizing machine virt with
  | nil =>
      obtain rfl := Option.some.inj maps
      exact ⟨Keeps.refl _, sound, rfl, fun _ _ _ _ _ => rfl⟩
  | cons phys rest ih =>
      obtain ⟨low, high⟩ := user.resolve_left (by simp)
      have restUser := user_rest low high
      simp only [List.length_cons, PAGE_SIZE, USER_SPACE_BASE, USER_SPACE_END] at low high
      simp only [vmmMapRun] at maps
      split at maps
      · cases maps
      · rename_i middle first
        obtain ⟨soundMiddle, sameCr3, _, changes, _⟩ := sound.map (by omega) first
        obtain ⟨keeps, _, _⟩ := sound.map_frames (by omega) first
        obtain ⟨keepsRest, soundAfter, sameAfter, kernel⟩ := ih soundMiddle restUser maps
        refine ⟨keeps.trans keepsRest, soundAfter, sameAfter.trans sameCr3, ?_⟩
        intro dir member index above inside
        rw [kernel dir member index above inside]
        refine changes.directory dir member index inside (fun own => ?_)
        have is := own.2
        simp only [KERNEL_PDE_START] at above
        omega

theorem mapRun_short {index : Nat} (sound : machine.Sound dirs data)
    (isCurrent : machine.cr3 = addrSpace) (short : Exhausted machine)
    (user
      : frames = [] ∨ USER_SPACE_BASE ≤ virt
        ∧ virt + frames.length * PAGE_SIZE ≤ USER_SPACE_END)
    (inside : index < KERNEL_PDE_START)
    (absent : present (dirEntry machine.memory addrSpace index) = false)
    (maps : vmmMapRun machine virt flags frames = some after)
    : Exhausted after ∧ present (dirEntry after.memory addrSpace index) = false := by
  induction frames generalizing machine virt with
  | nil =>
      obtain rfl := Option.some.inj maps
      exact ⟨short, absent⟩
  | cons phys rest ih =>
      obtain ⟨low, high⟩ := user.resolve_left (by simp)
      have restUser := user_rest low high
      simp only [List.length_cons, PAGE_SIZE, USER_SPACE_BASE, USER_SPACE_END] at low high
      simp only [vmmMapRun] at maps
      split at maps
      · cases maps
      · rename_i middle first
        obtain ⟨soundMiddle, sameCr3, _, changes, _⟩ := sound.map (by omega) first
        obtain ⟨keeps, _, wasNot⟩ := sound.map_frames (by omega) first
        have absentMiddle : present (dirEntry middle.memory addrSpace index) = false := by
          by_cases is : index = virt / 2 ^ 22
          · rw [is, ← isCurrent] at absent
            obtain ⟨_, gives⟩ := wasNot absent
            have none := short.allocp sound.paged.zero
            rw [is, ← isCurrent]
            by_contra there
            exact gives.mp (by simpa using there) none
          · have current := sound.current
            rw [isCurrent] at current
            have index' : index < 1024 := by
              simp only [KERNEL_PDE_START] at inside
              omega
            rw [changes.directory addrSpace current index index' (fun own => is own.2)]
            exact absent
        exact ih soundMiddle (sameCr3.trans isCurrent) (short.keeps keeps) restUser absentMiddle maps

/-- The pages from `first` on are mapped to these frames, with `tables` above them; the frames of
the new tables come from the calls behind those for `old`.
-/
structure RunPlaced (start : Machine) (addrSpace base first flags : Nat)
    (frames old tables : List Nat) (machine after : Machine) : Prop where
  calls : after.SameFrames (start.afterCalls (base + tables.length))
  has
    : ∀ index < KERNEL_PDE_START,
        present (dirEntry after.memory addrSpace index) = true ↔ index ∈ tables
  entries
    : ∀ page < KERNEL_PDE_START * 1024,
        pageEntry after.memory addrSpace page
        = if first ≤ page ∧ page < first + frames.length then
            frames.getD (page - first) 0 ||| flags ||| PAGE_PRESENT
          else pageEntry machine.memory addrSpace page
  handed : ∀ call, base + old.length ≤ call → call < base + tables.length → start.handed call ≠ 0

/-- A page from `first` on is left without a table above it: a call before `limit` found no frame. -/
structure RunShort (start : Machine) (addrSpace limit first count : Nat) (after : Machine)
    : Prop where
  exhausted : Exhausted after
  page : ∃ p < count, present (dirEntry after.memory addrSpace ((first + p) / 1024)) = false
  call : ∃ call < limit, start.handed call = 0

/-- A run of pages is mapped as planned, or a table cannot be had. -/
theorem mapRun_placed {base first : Nat} {tables : List Nat} (sound : machine.Sound dirs data)
    (isCurrent : machine.cr3 = addrSpace) (begins : virt = first * PAGE_SIZE)
    (user
      : frames = [] ∨ USER_SPACE_BASE ≤ virt
        ∧ virt + frames.length * PAGE_SIZE ≤ USER_SPACE_END)
    (small : ∀ phys ∈ frames, phys ||| flags ||| PAGE_PRESENT < 2 ^ 32)
    (calls : machine.SameFrames (start.afterCalls (base + tables.length)))
    (has
      : ∀ index < KERNEL_PDE_START,
          present (dirEntry machine.memory addrSpace index) = true ↔ index ∈ tables)
    (maps : vmmMapRun machine virt flags frames = some after)
    : RunPlaced start addrSpace base first flags frames tables
        ((List.range' first frames.length).foldl tableFor tables) machine after
      ∨ RunShort start addrSpace
          (base + ((List.range' first frames.length).foldl tableFor tables).length) first
          frames.length after := by
  induction frames generalizing machine virt first tables with
  | nil =>
      obtain rfl := Option.some.inj maps
      left
      refine ⟨calls, has, fun page _ => ?_, fun call from' to' => ?_⟩
      · rw [if_neg (by simp only [List.length_nil]; omega)]
      · simp only [List.length_nil, List.range'_zero, List.foldl_nil] at to'
        omega
  | cons phys rest ih =>
      obtain ⟨low, high⟩ := user.resolve_left (by simp)
      have restUser := user_rest low high
      simp only [List.length_cons, PAGE_SIZE, USER_SPACE_BASE, USER_SPACE_END] at low high begins
      simp only [vmmMapRun] at maps
      split at maps
      · cases maps
      · rename_i middle maps'
        obtain ⟨soundMiddle, sameCr3, _, changes, entry⟩ := sound.map (by omega) maps'
        obtain ⟨keeps, was, wasNot⟩ := sound.map_frames (by omega) maps'
        have current : addrSpace ∈ dirs := isCurrent ▸ sound.current
        have high22 : virt / 2 ^ 22 = first / 1024 := by omega
        have high12 : virt / 2 ^ 12 = first := by omega
        rw [isCurrent, high22] at was wasNot
        rw [sameCr3, isCurrent, high22, high12] at entry
        have inside : first / 1024 < KERNEL_PDE_START := by
          simp only [KERNEL_PDE_START]
          omega
        have others {index : Nat} (is : index ≠ first / 1024) (below : index < KERNEL_PDE_START)
            : dirEntry middle.memory addrSpace index = dirEntry machine.memory addrSpace index := by
          refine changes.directory addrSpace current index ?_ (fun own => is ?_)
          · simp only [KERNEL_PDE_START] at below
            omega
          · rw [← high22]
            exact own.2
        have next : (virt + PAGE_SIZE) % 2 ^ 32 = (first + 1) * PAGE_SIZE := by
          simp only [PAGE_SIZE]
          omega
        rw [List.length_cons, List.range'_succ, List.foldl_cons]
        have grows := tables_length (List.range' (first + 1) rest.length) (tableFor tables first)
        -- the rest of the run, once there is a table above the first page
        have goesOn (there : present (dirEntry middle.memory addrSpace (first / 1024)) = true)
            (callsMiddle : middle.SameFrames
              (start.afterCalls (base + (tableFor tables first).length)))
            (handed : ∀ call, base + tables.length ≤ call
              → call < base + (tableFor tables first).length → start.handed call ≠ 0)
            : RunPlaced start addrSpace base first flags (phys :: rest) tables
                ((List.range' (first + 1) rest.length).foldl tableFor (tableFor tables first))
                machine after
              ∨ RunShort start addrSpace (base + ((List.range' (first + 1) rest.length).foldl tableFor
                  (tableFor tables first)).length) first (rest.length + 1) after := by
          have hasMiddle : ∀ index < KERNEL_PDE_START,
              present (dirEntry middle.memory addrSpace index) = true
              ↔ index ∈ tableFor tables first := by
            intro index below
            rw [tableFor_mem]
            by_cases is : index = first / 1024
            · rw [is, there]
              simp
            · rw [others is below, has index below]
              simp [is]
          have stays := ih soundMiddle (sameCr3.trans isCurrent) next restUser
            (fun other member => small other (List.mem_cons_of_mem _ member)) callsMiddle hasMiddle
            maps
          rcases stays with placed | short
          · left
            refine ⟨placed.calls, placed.has, ?_, ?_⟩
            · intro page below
              rw [placed.entries page below]
              by_cases is : page = first
              · subst is
                rw [if_neg (by omega), if_pos (by simp), Nat.sub_self,
                  entry there (small phys List.mem_cons_self)]
                rfl
              · have same : pageEntry middle.memory addrSpace page
                    = pageEntry machine.memory addrSpace page := by
                  refine changes.page addrSpace current page ?_ (fun own => is ?_)
                  · simp only [KERNEL_PDE_START] at below
                    omega
                  · rw [← high12]
                    exact own.1
                rw [same]
                by_cases later : first + 1 ≤ page ∧ page < first + 1 + rest.length
                · have both : first ≤ page ∧ page < first + (phys :: rest).length := by
                    rw [List.length_cons]
                    omega
                  have index : page - first = page - (first + 1) + 1 := by omega
                  rw [if_pos later, if_pos both, index, List.getD_cons_succ]
                · have neither : ¬(first ≤ page ∧ page < first + (phys :: rest).length) := by
                    rw [List.length_cons]
                    omega
                  rw [if_neg later, if_neg neither]
            · intro call from' to'
              by_cases early : call < base + (tableFor tables first).length
              · exact handed call from' early
              · exact placed.handed call (by omega) to'
          · right
            obtain ⟨p, inRun, absent⟩ := short.page
            refine ⟨short.exhausted, ⟨p + 1, by omega, ?_⟩, short.call⟩
            have sum : first + (p + 1) = first + 1 + p := by omega
            rw [sum]
            exact absent
        by_cases there : present (dirEntry machine.memory addrSpace (first / 1024)) = true
        · obtain ⟨still, same⟩ := was there
          have noneNew : tableFor tables first = tables := by
            rw [tableFor, if_pos ((has _ inside).mp there)]
          refine goesOn still ?_ ?_
          · rw [noneNew]
            exact same.trans calls
          · rw [noneNew]
            intro call from' to'
            omega
        · have absent : present (dirEntry machine.memory addrSpace (first / 1024)) = false := by
            simpa using there
          obtain ⟨same, gives⟩ := wasNot absent
          obtain ⟨handed, sameNext⟩ := calls.next
          rw [handed] at gives
          have oneNew : (tableFor tables first).length = tables.length + 1 := by
            rw [tableFor, if_neg (fun member => there ((has _ inside).mpr member)),
              List.length_cons]
          by_cases none : start.handed (base + tables.length) = 0
          · right
            have absentMiddle : present (dirEntry middle.memory addrSpace (first / 1024))
                = false := by
              by_contra isThere
              exact gives.mp (by simpa using isThere) none
            have short : Exhausted machine := exhausted_of_allocp sound.paged.zero (handed.trans none)
            obtain ⟨exhausted, absentAfter⟩ := mapRun_short soundMiddle (sameCr3.trans isCurrent)
              (short.keeps keeps) restUser inside absentMiddle maps
            refine ⟨exhausted, ⟨0, by omega, absentAfter⟩, ⟨_, ?_, none⟩⟩
            omega
          · refine goesOn (gives.mpr none) ?_ ?_
            · rw [oneNew, ← Nat.add_assoc]
              exact same.trans sameNext
            · rw [oneNew]
              intro call from' to'
              have is : call = base + tables.length := by omega
              rw [is]
              exact none

-- The bytes

/-- What the loop that fills the `p`-th page leaves in the byte at `off`. -/
def filledByte (image : List UInt8) (seg : Segment) (p off : Nat) (old : UInt8) : UInt8 :=
  let segByte := p * PAGE_SIZE + off - seg.inPageOff
  if segByte < seg.memsz then
    if segByte < seg.filesz then image.getD ((seg.offset + segByte) % 2 ^ 32) 0 else 0
  else old

/-- The loop over the bytes of a page writes those of the segment, from `off` on. -/
theorem copyBytes_bytes {left off : Nat} (sound : machine.Sound dirs data)
    (scratch : Scratch machine phys) (member : phys ∈ data) (within : off + left ≤ 4096)
    (copies : copyBytes image seg p machine left off = some after)
    : after.SameFrames machine
      ∧ (∀ place, place / 4096 * 4096 ≠ phys → after.memory place = machine.memory place)
      ∧ (∀ o < 4096, after.memory (phys + o)
        = if off ≤ o ∧ o < off + left then
            filledByte image seg p o (machine.memory (phys + o))
          else machine.memory (phys + o))
      ∧ (0 < left → p * PAGE_SIZE + off - seg.inPageOff < seg.memsz
        → present (dirEntry machine.memory machine.cr3 (ELF_LOAD_SCRATCH / 2 ^ 22)) = true) := by
  induction left generalizing machine off with
  | zero =>
      obtain rfl := Option.some.inj copies
      refine ⟨Machine.SameFrames.refl _, fun _ _ => rfl, fun o _ => ?_, fun some => ?_⟩
      · rw [if_neg (by omega)]
      · omega
  | succ left ih =>
      simp only [copyBytes] at copies
      split at copies
      · rename_i ends
        obtain rfl := Option.some.inj copies
        refine ⟨Machine.SameFrames.refl _, fun _ _ => rfl, fun o _ => ?_, fun _ begins => ?_⟩
        · split
          · rw [filledByte, if_neg (by omega)]
          · rfl
        · omega
      · rename_i begins
        split at copies
        · cases copies
        · rename_i middle writes
          obtain ⟨physical, reached, rfl⟩ := Option.map_eq_some_iff.mp writes
          have there : present (dirEntry machine.memory machine.cr3 (ELF_LOAD_SCRATCH / 2 ^ 22))
              = true := by
            by_contra absent
            have page : (ELF_LOAD_SCRATCH + off) / 4096 / 1024 = ELF_LOAD_SCRATCH / 2 ^ 22 := by
              simp only [ELF_LOAD_SCRATCH]
              omega
            have noEntry : pageEntry machine.memory machine.cr3 ((ELF_LOAD_SCRATCH + off) / 4096)
                = 0 := by
              rw [pageEntry, page]
              simp only [absent, if_neg, not_false_eq_true]
            rw [PageTable.translate, noEntry] at reached
            simp at reached
          obtain rfl := scratch.reached (sound.paged.filled phys member).1 (by omega) reached
          have first : (if p * PAGE_SIZE + off - seg.inPageOff < seg.filesz then
              image.getD ((seg.offset + (p * PAGE_SIZE + off - seg.inPageOff)) % 2 ^ 32) 0
              else 0) = filledByte image seg p off (machine.memory (phys + off)) := by
            simp only [filledByte]
            rw [if_pos (Nat.lt_of_not_le begins)]
          rw [first] at copies
          generalize isByte : filledByte image seg p off (machine.memory (phys + off)) = byte
            at copies
          obtain ⟨soundMiddle, changes⟩ := sound_update sound byte member (by omega : off < 4096)
          have current := sound.current
          have scratchMiddle : Scratch { machine with
              memory := Function.update machine.memory (phys + off) byte } phys := by
            intro isPresent
            rw [changes.page _ current _ (by decide) (fun no => no)]
            exact scratch there
          obtain ⟨same, outside, inside, _⟩ := ih soundMiddle scratchMiddle (by omega) copies
          have aligned := (sound.paged.filled phys member).1
          refine ⟨⟨same.frames, same.free, same.cursor⟩, ?_, ?_, fun _ _ => there⟩
          · intro place apart
            rw [outside place apart]
            exact Function.update_of_ne (by omega) _ _
          · intro o below
            rw [inside o below]
            dsimp only
            by_cases is : o = off
            · subst is
              rw [if_neg (by omega), if_pos (by omega), Function.update_self, isByte]
            · rw [Function.update_of_ne (by omega)]
              by_cases later : off + 1 ≤ o ∧ o < off + 1 + left
              · rw [if_pos later, if_pos (by omega)]
              · rw [if_neg later, if_neg (by omega)]

theorem Exhausted.same (exhausted : Exhausted machine) (same : after.SameFrames machine)
    : Exhausted after := by
  intro page below
  rw [same.frames] at below
  rw [same.free]
  exact exhausted page below

/-- There is a table above the scratch page of the current directory. -/
abbrev ScratchTable (machine : Machine) : Prop :=
  present (dirEntry machine.memory machine.cr3 (ELF_LOAD_SCRATCH / 2 ^ 22)) = true

/-- What filling the pages from the `p`-th on changes: the bytes of the segment in their frames,
and the mapping of the scratch page.
-/
structure Fills (dirs data : List Nat) (image : List UInt8) (seg : Segment) (p : Nat)
    (frames : List Nat) (machine after : Machine) : Prop where
  sound : after.Sound dirs data
  cr3 : after.cr3 = machine.cr3
  count : after.frames = machine.frames
  taken : ∀ page, after.free page = true → machine.free page = true
  changes
    : Changes dirs (machine.OwnEntry (ELF_LOAD_SCRATCH / 2 ^ 22))
        (fun _ page => page = ELF_LOAD_SCRATCH / 2 ^ 12) machine.memory after.memory
  outside
    : ∀ place,
        (place / 4096 * 4096 ∈ data ∨ after.free (place / 4096) = true)
        → place / 4096 * 4096 ∉ frames
        → after.memory place = machine.memory place
  inside
    : ∀ (i : Nat) (phys : Nat),
        frames[i]? = some phys
        → ∀ o < 4096, after.memory (phys + o)
          = if (if p + i = 0 then seg.inPageOff else 0) ≤ o then
              filledByte image seg (p + i) o (machine.memory (phys + o))
            else machine.memory (phys + o)

/-- One page is filled. The allocator is called where there is no table above the scratch page;
where it has none, no byte is written.
-/
theorem fillFrame_bytes (sound : machine.Sound dirs data) (member : phys ∈ data)
    (fills : fillFrame image seg machine p phys = some after)
    : Fills dirs data image seg p [phys] machine after
      ∧ (ScratchTable machine → after.SameFrames machine ∧ ScratchTable after)
      ∧ (¬ScratchTable machine
        → after.SameFrames (pmmAllocp machine).2
          ∧ (ScratchTable after
            ∨ Exhausted after
              ∧ seg.memsz ≤ p * PAGE_SIZE + (if p = 0 then seg.inPageOff else 0)
                - seg.inPageOff)) := by
  obtain ⟨aligned, small, _⟩ := sound.paged.filled phys member
  simp only [fillFrame] at fills
  split at fills
  · cases fills
  · rename_i scratched maps
    split at fills
    · cases fills
    · rename_i copied copies
      obtain ⟨soundScratched, cr3Scratched, _, changesScratched, entry⟩ :=
        sound.map (by decide) maps
      obtain ⟨keeps, was, wasNot⟩ := sound.map_frames (by decide) maps
      have fits : phys ||| (PAGE_PRESENT ||| PAGE_RW) ||| PAGE_PRESENT < 2 ^ 32 :=
        Nat.or_lt_two_pow (Nat.or_lt_two_pow small (by decide)) (by decide)
      have offset : seg.inPageOff < 4096 := by
        simp only [Segment.inPageOff, Segment.pageStart, PAGE_SIZE]
        omega
      generalize begins : (if p = 0 then seg.inPageOff else 0) = first at copies ⊢
      have before : first < 4096 := by
        rw [← begins]
        split <;> omega
      have within : first + (PAGE_SIZE - first) ≤ 4096 := by
        simp only [PAGE_SIZE]
        omega
      have scratch : Scratch scratched phys := fun isPresent => entry isPresent fits
      obtain ⟨soundCopied, _, cr3Copied, changesCopied⟩ :=
        copyBytes_spec soundScratched scratch member within copies
      obtain ⟨sameCopied, outside, inside, wrote⟩ :=
        copyBytes_bytes soundScratched scratch member within copies
      obtain ⟨soundAfter, cr3After, _, changesAfter⟩ := soundCopied.unmap (by decide) fills
      obtain ⟨keepsAfter, sameAfter⟩ := soundCopied.unmap_frames (by decide) fills
      have same : after.SameFrames scratched := sameAfter.trans sameCopied
      have current := sound.current
      have sameEntry : dirEntry after.memory after.cr3 (ELF_LOAD_SCRATCH / 2 ^ 22)
          = dirEntry scratched.memory machine.cr3 (ELF_LOAD_SCRATCH / 2 ^ 22) := by
        rw [cr3After, cr3Copied, cr3Scratched,
          changesAfter.directory _ current _ (by decide) (fun no => no),
          changesCopied.directory _ current _ (by decide) (fun no => no)]
      refine ⟨⟨soundAfter, cr3After.trans (cr3Copied.trans cr3Scratched),
        same.frames.trans keeps.frames, ?_, ?_, ?_, ?_⟩, ?_, ?_⟩
      · intro page isFree
        rw [same.free] at isFree
        exact keeps.taken page isFree
      · refine (changesScratched.mono (fun _ _ _ _ was => was) ?_).trans
          ((changesCopied.mono (fun _ _ _ _ no => no.elim) (fun _ _ _ no => no.elim)).trans
            (changesAfter.mono (fun _ _ _ _ no => no.elim) ?_))
        · exact fun _ _ _ was => was.1
        · exact fun _ _ _ was => was.1
      · intro place kept apart
        rw [keepsAfter.bytes place kept, outside place (by simpa using apart)]
        refine keeps.bytes place (kept.imp_right (fun isFree => ?_))
        rw [← same.free]
        exact isFree
      · intro i other here o below
        obtain ⟨rfl, rfl⟩ : i = 0 ∧ phys = other := by
          cases i with
          | zero => exact ⟨rfl, by simpa using here⟩
          | succ i => simp at here
        have frame : (phys + o) / 4096 * 4096 = phys := by omega
        rw [keepsAfter.bytes (phys + o) (Or.inl (by rw [frame]; exact member)), inside o below,
          keeps.bytes (phys + o) (Or.inl (by rw [frame]; exact member)), Nat.add_zero, begins]
        by_cases from' : first ≤ o
        · rw [if_pos ⟨from', by simp only [PAGE_SIZE]; omega⟩, if_pos from']
        · rw [if_neg (fun both => from' both.1), if_neg from']
      · intro there
        obtain ⟨still, unchanged⟩ := was there
        refine ⟨same.trans unchanged, ?_⟩
        rw [ScratchTable, sameEntry]
        exact still
      · intro there
        obtain ⟨called, gives⟩ := wasNot (by simpa using there)
        refine ⟨same.trans called, ?_⟩
        by_cases none : (pmmAllocp machine).1 = 0
        · right
          have exhausted := (exhausted_of_allocp sound.paged.zero none).keeps keeps
          refine ⟨exhausted.same same, ?_⟩
          by_contra some
          have table := wrote (by simp only [PAGE_SIZE]; omega) (by omega)
          rw [cr3Scratched] at table
          exact gives.mp table none
        · left
          rw [ScratchTable, sameEntry]
          exact gives.mpr none

/-- The first page is filled, and the others then. -/
theorem Fills.cons {p phys : Nat} {rest : List Nat} {middle : Machine}
    (filled : Fills dirs data image seg p [phys] machine middle)
    (members : ∀ other ∈ phys :: rest, other ∈ data) (distinct : (phys :: rest).Nodup)
    (filledRest : Fills dirs data image seg (p + 1) rest middle after)
    : Fills dirs data image seg p (phys :: rest) machine after := by
  obtain ⟨fresh, _⟩ := List.nodup_cons.mp distinct
  have frame {other o : Nat} (member : other ∈ phys :: rest) (below : o < 4096)
      : (other + o) / 4096 * 4096 = other := by
    have aligned := (filled.sound.paged.filled other (members other member)).1
    omega
  refine ⟨filledRest.sound, filledRest.cr3.trans filled.cr3,
    filledRest.count.trans filled.count,
    fun page isFree => filled.taken page (filledRest.taken page isFree), ?_, ?_, ?_⟩
  · refine filled.changes.trans (filledRest.changes.mono ?_ (fun _ _ _ was => was))
    exact fun _ _ _ _ own => ⟨own.1.trans filled.cr3, own.2⟩
  · intro place kept apart
    rw [List.mem_cons, not_or] at apart
    rw [filledRest.outside place kept apart.2]
    exact filled.outside place (kept.imp_right (filledRest.taken _)) (by simpa using apart.1)
  · intro i other here o below
    cases i with
    | zero =>
        obtain rfl : phys = other := by simpa using here
        have member : phys ∈ phys :: rest := List.mem_cons_self
        have apart : (phys + o) / 4096 * 4096 ∉ rest := by
          rw [frame member below]
          exact fresh
        rw [filledRest.outside (phys + o) (Or.inl ?_) apart]
        · exact filled.inside 0 phys rfl o below
        · rw [frame member below]
          exact members phys member
    | succ i =>
        have here : rest[i]? = some other := by simpa using here
        have inRest := List.mem_of_getElem? here
        have member : other ∈ phys :: rest := List.mem_cons_of_mem _ inRest
        have apart : (other + o) / 4096 * 4096 ∉ [phys] := by
          rw [frame member below, List.mem_singleton]
          rintro rfl
          exact fresh inRest
        have old : middle.memory (other + o) = machine.memory (other + o) := by
          refine filled.outside (other + o) (Or.inl ?_) apart
          rw [frame member below]
          exact members other member
        have sum : p + 1 + i = p + (i + 1) := by omega
        rw [filledRest.inside i other here o below, old, sum]

theorem fillFrames_bytes (sound : machine.Sound dirs data) (members : ∀ phys ∈ frames, phys ∈ data)
    (distinct : frames.Nodup) (table : ScratchTable machine)
    (fills : fillFrames image seg machine p frames = some after)
    : Fills dirs data image seg p frames machine after ∧ after.SameFrames machine
      ∧ ScratchTable after := by
  induction frames generalizing machine p with
  | nil =>
      obtain rfl := Option.some.inj fills
      exact ⟨⟨sound, rfl, rfl, fun _ isFree => isFree, Changes.refl _, fun _ _ _ => rfl,
        fun i phys here => by simp at here⟩, Machine.SameFrames.refl _, table⟩
  | cons phys rest ih =>
      simp only [fillFrames] at fills
      split at fills
      · cases fills
      · rename_i middle first
        have member := members phys List.mem_cons_self
        obtain ⟨filled, was, _⟩ := fillFrame_bytes sound member first
        obtain ⟨same, tableMiddle⟩ := was table
        obtain ⟨fresh, distinctRest⟩ := List.nodup_cons.mp distinct
        obtain ⟨filledRest, sameRest, tableAfter⟩ := ih filled.sound
          (fun other inRest => members other (List.mem_cons_of_mem _ inRest)) distinctRest
          tableMiddle fills
        exact ⟨filled.cons members distinct filledRest, sameRest.trans same, tableAfter⟩

theorem fillFrames_first (sound : machine.Sound dirs data) (members : ∀ phys ∈ frames, phys ∈ data)
    (distinct : frames.Nodup) (notNil : frames ≠ []) (long : 1 < frames.length → 0 < seg.memsz)
    (fills : fillFrames image seg machine 0 frames = some after)
    : Fills dirs data image seg 0 frames machine after
      ∧ (ScratchTable machine → after.SameFrames machine ∧ ScratchTable after)
      ∧ (¬ScratchTable machine
        → after.SameFrames (pmmAllocp machine).2 ∧ (ScratchTable after ∨ Exhausted after)) := by
  cases frames with
  | nil => exact absurd rfl notNil
  | cons phys rest =>
      simp only [fillFrames] at fills
      split at fills
      · cases fills
      · rename_i middle first
        obtain ⟨filled, was, wasNot⟩ := fillFrame_bytes sound (members phys List.mem_cons_self) first
        obtain ⟨_, distinctRest⟩ := List.nodup_cons.mp distinct
        by_cases single : rest = []
        · subst single
          obtain rfl : middle = after := Option.some.inj fills
          refine ⟨filled, was, fun there => ?_⟩
          obtain ⟨called, either⟩ := wasNot there
          exact ⟨called, either.imp_right And.left⟩
        · have bytes : 0 < seg.memsz := by
            apply long
            have := List.length_pos_of_ne_nil single
            rw [List.length_cons]
            omega
          have table : ScratchTable middle := by
            by_cases there : ScratchTable machine
            · exact (was there).2
            · rcases (wasNot there).2 with table | ⟨_, nothing⟩
              · exact table
              · rw [if_pos rfl, Nat.zero_mul, Nat.zero_add, Nat.sub_self] at nothing
                omega
          obtain ⟨filledRest, sameRest, tableAfter⟩ := fillFrames_bytes filled.sound
            (fun other inRest => members other (List.mem_cons_of_mem _ inRest)) distinctRest table
            fills
          refine ⟨filled.cons members distinct filledRest, fun there => ?_, fun there => ?_⟩
          · exact ⟨sameRest.trans (was there).1, tableAfter⟩
          · exact ⟨sameRest.trans (wasNot there).1, Or.inl tableAfter⟩

theorem filledByte_eq {o : Nat} (old : UInt8) (begins : seg.pageStart + seg.inPageOff = seg.vaddr)
    (inPage : seg.inPageOff < PAGE_SIZE) (inFile : seg.offset + seg.filesz ≤ image.length)
    (size : image.length < 2 ^ 32)
    : (if (if p = 0 then seg.inPageOff else 0) ≤ o then filledByte image seg p o old else old)
      = if seg.Has (seg.pageStart + p * PAGE_SIZE + o) then
          seg.byte image (seg.pageStart + p * PAGE_SIZE + o)
        else old := by
  have first : (if p = 0 then seg.inPageOff else 0) ≤ o ↔ seg.inPageOff ≤ p * PAGE_SIZE + o := by
    cases p with
    | zero => simp
    | succ p =>
        rw [if_neg (Nat.succ_ne_zero p), Nat.succ_mul]
        omega
  have place : seg.pageStart + p * PAGE_SIZE + o - seg.vaddr = p * PAGE_SIZE + o - seg.inPageOff := by
    omega
  by_cases from' : seg.inPageOff ≤ p * PAGE_SIZE + o
  · rw [if_pos (first.mpr from')]
    by_cases inside : p * PAGE_SIZE + o - seg.inPageOff < seg.memsz
    · have has : seg.Has (seg.pageStart + p * PAGE_SIZE + o) := ⟨by omega, by omega⟩
      rw [if_pos has]
      simp only [filledByte, Segment.byte]
      rw [if_pos inside, place]
      split
      · rw [Nat.mod_eq_of_lt (by omega)]
      · rfl
    · have hasNot : ¬seg.Has (seg.pageStart + p * PAGE_SIZE + o) := by
        rintro ⟨_, high⟩
        omega
      rw [if_neg hasNot]
      simp only [filledByte]
      rw [if_neg inside]
  · have hasNot : ¬seg.Has (seg.pageStart + p * PAGE_SIZE + o) := by
      rintro ⟨low, _⟩
      omega
    rw [if_neg (fun begins => from' (first.mp begins)), if_neg hasNot]

end Panuti.Elf
