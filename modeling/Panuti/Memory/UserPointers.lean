import Panuti.Memory.OpenPages

/-! `usr.c`: which user pointers the kernel accepts. It accepts a range whose pages are all present,
so a pointer is accepted wrongly if and only if ring 3 itself may not use one of these pages.
-/

namespace Panuti.Vmm

open ByteMemory PageTable

/-- `pages_mapped`; there is no result where the turns do not suffice. -/
def pagesMapped (machine : Machine) (stop : Nat) : (turns a : Nat) → Option Bool
  | 0, _ => none
  | turns + 1, a =>
      if a < stop then do
        let phys ← vmmGetPhys machine a
        if phys = 0 then some false
        else pagesMapped machine stop turns ((a + 0x1000) % 2 ^ 32)
      else some true

def kernelUsrptrVerify (machine : Machine) (ptr len : Nat) : Option Bool :=
  if kernelIsUserRange ptr len = false then some false
  else if len = 0 then some true
  else pagesMapped machine ((ptr + len) % 2 ^ 32) (len / PAGE_SIZE + 3) (ptr / PAGE_SIZE * PAGE_SIZE)

def InRange (ptr len page : Nat) : Prop := ptr / PAGE_SIZE ≤ page ∧ page * PAGE_SIZE < ptr + len

/-- The kernel accepts a pointer only where ring 3 could use it: the range does not wrap, lies in
user space, and all of its pages are present and may be used by ring 3.
-/
def Machine.VerifiesWell (machine : Machine) (ptr len : Nat) : Prop :=
  ∃ answer, kernelUsrptrVerify machine ptr len = some answer
    ∧ (answer = true → ptr + len < 2 ^ 32 ∧ USER_SPACE_BASE ≤ ptr ∧ ptr + len ≤ USER_SPACE_END
        ∧ ∀ page, InRange ptr len page → machine.permits machine.cr3 page 2 = true)

/-- A range of user space whose pages are all present, though ring 3 may not use one of them. -/
def Machine.HidesIn (machine : Machine) (ptr len : Nat) : Prop :=
  USER_SPACE_BASE ≤ ptr ∧ ptr + len ≤ USER_SPACE_END
    ∧ (∀ page, InRange ptr len page → machine.view machine.cr3 page ≠ none)
    ∧ ∃ page, InRange ptr len page ∧ machine.permits machine.cr3 page 2 = false

section

variable {dirs data : List Nat} {machine : Machine} {ptr len : Nat}

theorem Spaces.getPhys (spaces : Spaces machine dirs data) {page : Nat} (user : page < USER_LAST)
    : ∃ phys, vmmGetPhys machine (page * PAGE_SIZE) = some phys
      ∧ (phys = 0 ↔ machine.view machine.cr3 page = none) := by
  obtain ⟨high, whole⟩ := @user_page page
  have inside := user_inside user
  have found := vmmGetPhys_eq (spaces.sound.paged.rooted _ spaces.sound.current).2.2.2
    (by omega : page * PAGE_SIZE / 2 ^ 22 < 1024)
  rw [whole] at found
  refine ⟨_, found, ?_⟩
  cases seen : machine.view machine.cr3 page with
  | none => simp
  | some entry =>
      have held := spaces.backed _ spaces.sound.current page user entry seen
      simp [(spaces.known _ held).2]

/-- The loop looks at all pages from `page` on below `stop`. -/
theorem Spaces.pagesMapped (spaces : Spaces machine dirs data) {stop turns page : Nat}
    (user : stop ≤ USER_LAST * PAGE_SIZE) (enough : stop + PAGE_SIZE ≤ (page + turns) * PAGE_SIZE)
    (start : page * PAGE_SIZE < stop + PAGE_SIZE)
    : ∃ answer, Vmm.pagesMapped machine stop turns (page * PAGE_SIZE) = some answer
      ∧ (answer = true
        ↔ ∀ other, page ≤ other → other * PAGE_SIZE < stop
          → machine.view machine.cr3 other ≠ none) := by
  induction turns generalizing page with
  | zero =>
      rw [Nat.add_zero] at enough
      exact absurd start (Nat.not_lt.mpr enough)
  | succ turns ih =>
      rw [Vmm.pagesMapped]
      by_cases ends : page * PAGE_SIZE < stop
      · have userPage : page < USER_LAST := by
          simp only [PAGE_SIZE] at ends user
          omega
        obtain ⟨phys, found, zero⟩ := spaces.getPhys userPage
        rw [if_pos ends, found]
        simp only [Option.bind_eq_bind, Option.bind_some]
        by_cases unmapped : phys = 0
        · rw [if_pos unmapped]
          refine ⟨false, rfl, by rintro ⟨⟩, fun all => ?_⟩
          exact absurd (zero.mp unmapped) (all page (Nat.le_refl _) ends)
        · have next := next_page userPage
          simp only [PAGE_SIZE] at next
          have sum : page + 1 + turns = page + (turns + 1) := by omega
          have started : (page + 1) * PAGE_SIZE < stop + PAGE_SIZE := by
            rw [Nat.add_mul, Nat.one_mul]
            exact Nat.add_lt_add_right ends _
          obtain ⟨answer, ran, all⟩ := ih (by rw [sum]; exact enough) started
          rw [if_neg unmapped]
          refine ⟨answer, ?_, ?_⟩
          · simp only [PAGE_SIZE] at ran ⊢
            rw [next]
            exact ran
          · rw [all]
            constructor
            · intro rest other after inside
              by_cases here : other = page
              · rw [here]
                exact fun none => unmapped (zero.mpr none)
              · exact rest other (by omega) inside
            · exact fun rest other after inside => rest other (by omega) inside
      · rw [if_neg ends]
        refine ⟨true, rfl, fun _ other after inside => ?_, fun _ => rfl⟩
        simp only [PAGE_SIZE] at ends inside
        omega

theorem Spaces.verify (spaces : Spaces machine dirs data) (ptrSmall : ptr < 2 ^ 32)
    (lenSmall : len < 2 ^ 32) (some : 0 < len)
    : ∃ answer, kernelUsrptrVerify machine ptr len = Option.some answer
      ∧ (answer = true ↔ USER_SPACE_BASE ≤ ptr ∧ ptr + len ≤ USER_SPACE_END
          ∧ ∀ page, InRange ptr len page → machine.view machine.cr3 page ≠ none) := by
  have notZero : len ≠ 0 := Nat.ne_of_gt some
  rw [kernelUsrptrVerify]
  have range : kernelIsUserRange ptr len = true
      ↔ USER_SPACE_BASE ≤ ptr ∧ ptr + len ≤ USER_SPACE_END := by
    rw [kernelIsUserRange, if_neg notZero]
    simp only [Bool.and_eq_true, decide_eq_true_eq]
    simp only [USER_SPACE_BASE, USER_SPACE_END]
    constructor
    · rintro ⟨⟨low, order⟩, high⟩
      omega
    · rintro ⟨low, high⟩
      omega
  by_cases inUser : USER_SPACE_BASE ≤ ptr ∧ ptr + len ≤ USER_SPACE_END
  · have accepted : ¬kernelIsUserRange ptr len = false := by
      rw [range.mpr inUser]
      decide
    obtain ⟨low, high⟩ := inUser
    have last : USER_SPACE_END = USER_LAST * PAGE_SIZE := by decide
    have bound : ptr + len ≤ 3221225472 := high
    have whole : (ptr + len) % 2 ^ 32 = ptr + len := by omega
    obtain ⟨answer, ran, all⟩ := spaces.pagesMapped (last ▸ high : ptr + len ≤ _)
      (by simp only [PAGE_SIZE]; omega
        : ptr + len + PAGE_SIZE ≤ (ptr / PAGE_SIZE + (len / PAGE_SIZE + 3)) * PAGE_SIZE)
      (by simp only [PAGE_SIZE]; omega)
    rw [if_neg accepted, if_neg notZero, whole]
    refine ⟨answer, ran, ?_⟩
    rw [all]
    constructor
    · exact fun mapped => ⟨low, high, fun page inRange => mapped page inRange.1 inRange.2⟩
    · exact fun mapped page first inside => mapped.2.2 page ⟨first, inside⟩
  · have refused : kernelIsUserRange ptr len = false := by
      by_contra not
      exact inUser (range.mp (by simpa using not))
    rw [if_pos refused]
    exact ⟨false, rfl, by rintro ⟨⟩, fun all => absurd ⟨all.1, all.2.1⟩ inUser⟩

theorem Spaces.verifiesWell_iff (spaces : Spaces machine dirs data) (ptrSmall : ptr < 2 ^ 32)
    (lenSmall : len < 2 ^ 32) (some : 0 < len)
    : machine.VerifiesWell ptr len ↔ ¬machine.HidesIn ptr len := by
  obtain ⟨answer, ran, accepts⟩ := spaces.verify ptrSmall lenSmall some
  constructor
  · rintro ⟨answer', ran', well⟩ ⟨low, high, mapped, page, inRange, hidden⟩
    rw [ran] at ran'
    obtain rfl := Option.some.inj ran'
    rw [(well (accepts.mpr ⟨low, high, mapped⟩)).2.2.2 page inRange] at hidden
    cases hidden
  · intro not
    refine ⟨answer, ran, fun accepted => ?_⟩
    obtain ⟨low, high, mapped⟩ := accepts.mp accepted
    refine ⟨?_, low, high, fun page inRange => ?_⟩
    · simp only [USER_SPACE_END] at high
      omega
    · by_contra hidden
      exact not ⟨low, high, mapped, page, inRange, by simpa using hidden⟩

theorem Machine.AllOpen.hidesNone (isOpen : machine.AllOpen dirs) (current : machine.cr3 ∈ dirs)
    : ¬machine.HidesIn ptr len := by
  rintro ⟨low, high, mapped, page, inRange, hidden⟩
  have user : page < USER_LAST := by
    have inside := inRange.2
    simp only [USER_SPACE_END, PAGE_SIZE] at high inside
    simp only [USER_LAST]
    omega
  rw [isOpen _ current page user (mapped page inRange)] at hidden
  cases hidden

end

end Panuti.Vmm
