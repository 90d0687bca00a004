import Panuti.Pur.Commands

/-! Running a command line. `pur_run_command` goes through the expressions with their operators and
loads those that it runs; a line of the grammar means the same, read from the left.
-/

namespace Panuti.Pur

-- What the shell does

/-- How `pur_exec` ends: a built-in ran with a result, the commands were waited for with their exit
codes, a command was not found, or something else kept the expression from being started.
-/
inductive Executed where
  | builtin (result : Int)
  | waited (codes : List Int)
  | notfound
  | failed

/-- The loop of `pur_exec` over the exit codes. -/
def lowestLoop (lowest : Int) (ec : Int) : Int :=
  if ec ≠ 0 ∧ (lowest = 0 ∨ ec < lowest) then ec else lowest

/-- The status that `pur_exec` stores, or `pur_run_command` where it was not started. -/
def Executed.status : Executed → Int
  | .builtin result => if result ≠ 0 then 1 else 0
  | .waited codes => codes.foldl lowestLoop 0
  | .notfound => 127
  | .failed => 1

def purOpShouldRun (op : Op) (status : Int) : Bool :=
  match op with
  | .and => status == 0
  | .or => status != 0
  | _ => true

def purParseOp (parsed : Parsed) (index : Nat) : Op :=
  match parsed.exprs[index]? with
  | Option.none => .none
  | some (_, op) => op

section

variable {σ : Type} (grants : Nat → Nat → Bool) (exec : Nat → Ast → σ → Executed × σ)

/-- The loop of `pur_run_command` from an index on, with so many expressions left. There is no
status where an expression cannot be loaded; `exec` is `pur_exec` of what was loaded.
-/
def runLoop (parsed : Parsed) : Nat → Nat → Int → σ → Option Int × σ
  | 0, _, status, world => (some status, world)
  | left + 1, i, status, world =>
      if 0 < i ∧ purOpShouldRun (purParseOp parsed (i - 1)) status = false then
        runLoop parsed left (i + 1) status world
      else
        match purParseLoad (grants i) parsed i with
        | .error _ => (Option.none, world)
        | .ok (root, ast) =>
            let (executed, world) := exec root ast world
            runLoop parsed left (i + 1) executed.status world

def purRunCommand (parsed : Parsed) (world : σ) : Option Int × σ :=
  runLoop grants exec parsed parsed.exprs.length 0 0 world

end

-- What a line means

/-- Expressions under operators, read from the left. -/
inductive Chain (α : Type) where
  | single (tree : α)
  | join (left : Chain α) (op : Op) (right : α)

def chainFrom {α : Type} (left : Chain α) (op : Op) : List (α × Op) → Chain α
  | [] => left
  | (tree, next) :: rest => chainFrom (.join left op tree) next rest

def chainOf {α : Type} : List (α × Op) → Option (Chain α)
  | [] => Option.none
  | (tree, op) :: rest => some (chainFrom (.single tree) op rest)

/-- When the expression behind an operator runs. -/
def Op.Passes : Op → Int → Prop
  | .and, status => status = 0
  | .or, status => status ≠ 0
  | _, _ => True

/-- What a chain does to the world, and its status: that of the last expression that ran. -/
inductive Means {α σ : Type} (runs : α → σ → Int → σ → Prop) : Chain α → σ → Int → σ → Prop where
  | single {tree : α} {world after : σ} {status : Int} (ran : runs tree world status after)
      : Means runs (.single tree) world status after
  | passes {left : Chain α} {op : Op} {right : α} {world between after : σ} {before status : Int}
      (first : Means runs left world before between) (passes : op.Passes before)
      (ran : runs right between status after)
      : Means runs (.join left op right) world status after
  | stops {left : Chain α} {op : Op} {right : α} {world after : σ} {status : Int}
      (first : Means runs left world status after) (stops : ¬op.Passes status)
      : Means runs (.join left op right) world status after

/-- The status of commands that ran side by side: 0 where all gave 0, else the least that is not. -/
def StatusOf (codes : List Int) (status : Int) : Prop :=
  ((∀ code ∈ codes, code = 0) ∧ status = 0)
    ∨ (status ≠ 0 ∧ status ∈ codes ∧ ∀ code ∈ codes, code ≠ 0 → status ≤ code)

/-- An expression ran: it was given to `pur_exec` as its tree, with the words of the line. -/
def Ran {σ : Type} (exec : Nat → Ast → σ → Executed × σ) (line : List UInt8)
    (tree : Tree (List Text)) (world : σ) (status : Int) (after : σ) : Prop :=
  ∃ root ast executed,
    ast.Yields (fun leaf words => purLeafArgv line ast leaf = some words) root tree
    ∧ exec root ast world = (executed, after) ∧ status = executed.status
    ∧ ∀ codes, executed = .waited codes → StatusOf codes status

-- The statuses

/-- The loop over the exit codes takes its start for one of them. -/
theorem statusOf_foldl (codes : List Int) (lowest : Int)
    : StatusOf (lowest :: codes) (codes.foldl lowestLoop lowest) := by
  induction codes generalizing lowest with
  | nil =>
      by_cases zero : lowest = 0
      · exact .inl ⟨by simp [zero], zero⟩
      · exact .inr ⟨zero, List.mem_singleton_self _, by simp⟩
  | cons code codes ih =>
      have rest := ih (lowestLoop lowest code)
      rw [List.foldl_cons]
      generalize codes.foldl lowestLoop (lowestLoop lowest code) = status at rest
      rw [lowestLoop] at rest
      split at rest
      · rename_i lower
        rcases rest with ⟨zeros, -⟩ | ⟨some, member, least⟩
        · exact absurd (zeros code List.mem_cons_self) lower.1
        · refine .inr ⟨some, List.mem_cons_of_mem _ member, fun other among notZero => ?_⟩
          have below := least code List.mem_cons_self lower.1
          rcases List.mem_cons.mp among with rfl | among
          · have before := lower.2.resolve_left notZero
            omega
          · exact least other among notZero
      · rename_i notLower
        rcases rest with ⟨zeros, zero⟩ | ⟨some, member, least⟩
        · have first := zeros lowest List.mem_cons_self
          have isZero : code = 0 := by_contra fun notZero => notLower ⟨notZero, .inl first⟩
          exact .inl ⟨by simpa [isZero] using zeros, zero⟩
        · refine .inr ⟨some, ?_, fun other among notZero => ?_⟩
          · rcases List.mem_cons.mp member with rfl | member
            · exact List.mem_cons_self
            · exact List.mem_cons_of_mem _ (List.mem_cons_of_mem _ member)
          · rcases List.mem_cons.mp among with rfl | among
            · exact least _ List.mem_cons_self notZero
            · rcases List.mem_cons.mp among with rfl | among
              · have kept : lowest ≠ 0 ∧ ¬other < lowest :=
                  not_or.mp fun lower => notLower ⟨notZero, lower⟩
                have below := least lowest List.mem_cons_self kept.1
                omega
              · exact least other (List.mem_cons_of_mem _ among) notZero

theorem statusOf_waited (codes : List Int) : StatusOf codes (Executed.waited codes).status := by
  rcases statusOf_foldl codes 0 with ⟨zeros, zero⟩ | ⟨some, member, least⟩
  · exact .inl ⟨fun code among => zeros code (List.mem_cons_of_mem _ among), zero⟩
  · refine .inr ⟨some, (List.mem_cons.mp member).resolve_left some, fun code among => ?_⟩
    exact least code (List.mem_cons_of_mem _ among)

-- The loop

theorem purOpShouldRun_iff (op : Op) (status : Int)
    : purOpShouldRun op status = true ↔ op.Passes status := by
  cases op <;> simp [purOpShouldRun, Op.Passes]

variable {σ : Type} {grants : Nat → Nat → Bool} {exec : Nat → Ast → σ → Executed × σ}
    {parsed : Parsed} {exprs : List (Tree (List Text) × Op)} {grantsLine : Nat → Bool}

theorem Loads.ran (exec : Nat → Ast → σ → Executed × σ)
    (loads : List.Forall₂ (Loads grantsLine (cstr parsed.line)) parsed.exprs exprs)
    (granted : ∀ index k, grants index k = true) {index : Nat} {tree : Tree (List Text)} {op : Op}
    (expr : exprs[index]? = some (tree, op)) (world : σ)
    : ∃ root ast, purParseLoad (grants index) parsed index = .ok (root, ast)
      ∧ Ran exec parsed.line tree world (exec root ast world).1.status (exec root ast world).2 := by
  obtain ⟨root, ast, loaded, yields⟩ := Loads.load loads expr (granted index)
  refine ⟨root, ast, loaded, root, ast, (exec root ast world).1, yields, rfl, rfl, ?_⟩
  intro codes same
  rw [same]
  exact statusOf_waited codes

theorem Loads.parseOp
    (loads : List.Forall₂ (Loads grantsLine (cstr parsed.line)) parsed.exprs exprs) {index : Nat}
    {tree : Tree (List Text)} {op : Op} (expr : exprs[index]? = some (tree, op))
    : purParseOp parsed index = op := by
  obtain ⟨inside, isExpr⟩ := List.getElem?_eq_some_iff.mp expr
  have among : index < parsed.exprs.length := loads.length_eq ▸ inside
  have loaded := (loads.get among inside).op
  simp only [List.get_eq_getElem, isExpr] at loaded
  rw [purParseOp, List.getElem?_eq_getElem among]
  exact loaded

/-- The loop behind an expression goes on with the chain up to there. -/
theorem runLoop_means
    (loads : List.Forall₂ (Loads grantsLine (cstr parsed.line)) parsed.exprs exprs)
    (granted : ∀ index k, grants index k = true) {start : σ} {rest before : List _}
    : ∀ {last : Tree (List Text)} {op : Op} {chain : Chain (Tree (List Text))} {status : Int}
      {world : σ}, exprs = before ++ (last, op) :: rest
      → Means (Ran exec parsed.line) chain start status world
      → ∃ final after,
          runLoop grants exec parsed rest.length (before.length + 1) status world
            = (some final, after)
          ∧ Means (Ran exec parsed.line) (chainFrom chain op rest) start final after := by
  induction rest generalizing before with
  | nil => exact fun _ means => ⟨_, _, rfl, means⟩
  | cons expr rest ih =>
      intro last op chain status world same means
      obtain ⟨tree, next⟩ := expr
      have isLast : exprs[before.length]? = some (last, op) := by simp [same]
      have isExpr : exprs[before.length + 1]? = some (tree, next) := by simp [same]
      have further : exprs = (before ++ [(last, op)]) ++ (tree, next) :: rest := by simp [same]
      have length : (before ++ [(last, op)]).length = before.length + 1 := by simp
      have goes := @ih (before ++ [(last, op)]) tree next
      rw [length] at goes
      rw [List.length_cons, runLoop, Nat.add_sub_cancel, Loads.parseOp loads isLast]
      by_cases passes : op.Passes status
      · rw [if_neg fun both => by simp [(purOpShouldRun_iff op status).mpr passes] at both]
        obtain ⟨root, ast, loaded, ran⟩ := Loads.ran exec loads granted isExpr world
        rw [loaded]
        exact goes further (.passes means passes ran)
      · have held : purOpShouldRun op status = false :=
          Bool.eq_false_iff.mpr fun runs => passes ((purOpShouldRun_iff op status).mp runs)
        rw [if_pos ⟨Nat.succ_pos _, held⟩]
        exact goes further (.stops means passes)

/-- A line that was accepted is run as it reads: every expression that comes to run loads, and is
given to `pur_exec` as its tree; the operators decide from the left, and the status is that of the
last expression that ran.
-/
theorem purRunCommand_means {grantsToks : Nat → Bool} {line : List UInt8} {ast : Ast}
    (noNul : (0 : UInt8) ∉ line)
    (accepted : purParseCommand grantsToks grantsLine line ast = .ok parsed)
    {lexemes : List Lexeme} (lexes : Lexes line lexemes) (commands : Commands true exprs lexemes)
    (granted : ∀ index k, grants index k = true) (world : σ)
    : ∃ chain status after, chainOf exprs = some chain
      ∧ purRunCommand grants exec parsed world = (some status, after)
      ∧ Means (Ran exec parsed.line) chain world status after := by
  have loads := (purParseCommand_complete grantsToks grantsLine ast noNul lexes
    commands).value accepted
  obtain ⟨tree, op, rest, rfl⟩ : ∃ tree op rest, exprs = (tree, op) :: rest := by
    cases commands with
    | last => exact ⟨_, _, _, rfl⟩
    | joined => exact ⟨_, _, _, rfl⟩
  obtain ⟨root, loadedAst, loaded, ran⟩ :=
    @Loads.ran _ grants _ _ _ exec loads granted 0 tree op rfl world
  obtain ⟨status, after, runs, means⟩ :=
    @runLoop_means _ _ _ _ _ _ loads granted world rest [] tree op _ _ _ rfl (.single ran)
  refine ⟨_, status, after, rfl, ?_, means⟩
  rw [purRunCommand, loads.length_eq, List.length_cons, runLoop, if_neg (by simp), loaded]
  exact runs

/-- `a`, and `b` where it fails. -/
theorem purRunCommand_means_or
    : ∃ parsed status after,
        purParseCommand grantAll grantAll (letters ['a', '|', '|', 'b']) noPools = .ok parsed
        ∧ purRunCommand (fun _ => grantAll)
          (fun _ _ started => (.waited [(started : Nat)], started + 1)) parsed 1
          = (some status, after) := by
  obtain ⟨parsed, accepted⟩ : ∃ parsed,
      purParseCommand grantAll grantAll (letters ['a', '|', '|', 'b']) noPools = .ok parsed :=
    exists_ok (by decide)
  have sound := @purParseCommand_sound (letters ['a', '|', '|', 'b']) grantAll grantAll noPools
    (by decide)
  rw [accepted] at sound
  obtain ⟨lexemes, exprs, lexes, commands⟩ := sound
  obtain ⟨chain, status, after, -, ran, -⟩ := purRunCommand_means (by decide) accepted lexes
    commands (fun _ _ => rfl) 1
  exact ⟨parsed, status, after, accepted, ran⟩

end Panuti.Pur
