import Neutron.Handle

/-!
# The async context of a thread

`ASYNC_TASKS` and `ASYNC_STACKS` are thread-local. A poll function is compiled code: one
poll reads and writes memory that is not modelled further (`World`), and reaches the
context of its thread only through `ntsc_async_push`, `ntsc_async_wait_any`,
`ntsc_async_wait_all` and `ntsc_async_run`. Both vectors are kept with the top first.
-/

namespace Neutron

universe u v

/-- What one poll does, up to its return value. -/
inductive Script (F : Type u) (World : Type v)
  | ret (value : Int)
  | access (act : World → World) (next : World → Script F World)
  | push (poll : F) (future : Int) (next : Script F World)
  | waitAny (pollA : F) (futureA : Int) (pollB : F) (futureB : Int) (next : Int → Script F World)
  | waitAll (pollA : F) (futureA : Int) (pollB : F) (futureB : Int) (next : Int → Script F World)
  | run (poll : F) (root : Int) (next : Script F World)

structure Context (F : Type u) (World : Type v) where
  asyncTasks : List (F × Int)
  asyncStacks : List (List (F × Int) × Int)
  world : World

namespace Context

variable {F : Type u} {World : Type v} (c : Context F World)

def saveAsyncContext : Context F World :=
  { c with
    asyncTasks := []
    asyncStacks := (c.asyncTasks, (c.asyncStacks.head?.map Prod.snd).getD null) :: c.asyncStacks }

def restoreAsyncContext : Context F World :=
  match c.asyncStacks with
  | [] => c
  | (saved, _) :: rest => { c with asyncTasks := saved, asyncStacks := rest }

def pushTask (poll : F) (future : Int) : Context F World := { c with asyncTasks := (poll, future) :: c.asyncTasks }

def popTask : Context F World := { c with asyncTasks := c.asyncTasks.tail }

def asyncPush (poll : F) (future : Int) : Context F World :=
  if future = null then c else c.pushTask poll future

def pushStack (tasks : List (F × Int)) : Context F World := { c with asyncStacks := (tasks, null) :: c.asyncStacks }

/-- The tasks of the last saved context, where the second branch of a wait is kept. -/
def lastTasks : List (F × Int) := (c.asyncStacks.head?.map Prod.fst).getD []

def popLastTask : Context F World :=
  match c.asyncStacks with
  | [] => c
  | (tasks, result) :: rest => { c with asyncStacks := (tasks.tail, result) :: rest }

end Context

/-- The two halves of a round of a wait. -/
inductive Branch
  | a
  | b
  deriving DecidableEq

/-- One poll made by a wait, with the context before and after it. -/
structure Polled (F : Type u) (World : Type v) where
  branch : Branch
  task : F × Int
  ret : Int
  before : Context F World
  after : Context F World

/-- What a wait returns, with the polls it made. -/
structure Waited (F : Type u) (World : Type v) where
  context : Context F World
  result : Int
  polls : List (Polled F World)

section Waits

variable {F : Type u} {World : Type v}
  (poll : Context F World → F × Int → Option (Context F World × Int))

def anyLoop (futureA futureB : Int) : ℕ → Context F World → Option (Waited F World)
  | 0, _ => none
  | n + 1, c =>
      match c.asyncTasks with
      | [] => some ⟨c, null, []⟩
      | taskA :: _ => (poll c taskA).bind fun (c₁, retA) =>
          let polledA := ⟨.a, taskA, retA, c, c₁⟩
          if retA = 1 then some ⟨c₁.popTask, futureA, [polledA]⟩ else
            match c₁.lastTasks with
            | [] => some ⟨c₁, null, [polledA]⟩
            | taskB :: _ => (poll c₁ taskB).bind fun (c₂, retB) =>
                let polledB := ⟨.b, taskB, retB, c₁, c₂⟩
                if retB = 1 then some ⟨c₂.popLastTask, futureB, [polledA, polledB]⟩ else
                  (anyLoop futureA futureB n c₂).map fun w =>
                    { w with polls := polledA :: polledB :: w.polls }

/-- `ntsc_async_wait_any`. -/
def asyncWaitAny (fuel : ℕ) (c : Context F World) (pollA : F) (futureA : Int) (pollB : F) (futureB : Int) :
    Option (Waited F World) :=
  if futureA = null ∧ futureB = null then some ⟨c, null, []⟩
  else if futureA = null ∨ futureB = null then
    if futureA ≠ null then some ⟨c.pushTask pollA futureA, futureA, []⟩
    else some ⟨c.pushTask pollB futureB, futureB, []⟩
  else
    let c := (c.saveAsyncContext.pushTask pollA futureA).pushStack [(pollB, futureB)]
    (anyLoop poll futureA futureB fuel c).map fun w =>
      { w with context := w.context.restoreAsyncContext }

/-- One half of a round of `wait_all`, on the task list `tasks` of its branch: the context,
whether the branch is done, and the poll. -/
def allHalf (branch : Branch) (tasks : Context F World → List (F × Int))
    (pop : Context F World → Context F World) (c : Context F World) :
    Option (Context F World × Bool × List (Polled F World)) :=
  match tasks c with
  | [] => some (c, true, [])
  | task :: _ => (poll c task).map fun (c₁, ret) =>
      let pushed := (tasks c).length < (tasks c₁).length
      (if ret = 1 then pop c₁ else c₁, decide (ret = 1 ∧ ¬pushed), [⟨branch, task, ret, c, c₁⟩])

def allHalfA (c : Context F World) : Option (Context F World × Bool × List (Polled F World)) :=
  allHalf poll .a Context.asyncTasks Context.popTask c

def allHalfB (c : Context F World) : Option (Context F World × Bool × List (Polled F World)) :=
  allHalf poll .b Context.lastTasks Context.popLastTask c

def allLoop (futureB : Int) : ℕ → Bool → Bool → Context F World → Option (Waited F World)
  | 0, _, _, _ => none
  | n + 1, doneA, doneB, c =>
      if doneA ∧ doneB then some ⟨c, futureB, []⟩ else
        (if doneA then some (c, true, []) else allHalfA poll c).bind fun (c₁, doneA, polledA) =>
          (if doneB then some (c₁, true, []) else allHalfB poll c₁).bind fun (c₂, doneB, polledB) =>
            (allLoop futureB n doneA doneB c₂).map fun w => { w with polls := polledA ++ polledB ++ w.polls }

/-- `ntsc_async_wait_all`. -/
def asyncWaitAll (fuel : ℕ) (c : Context F World) (pollA : F) (futureA : Int) (pollB : F) (futureB : Int) :
    Option (Waited F World) :=
  if futureA = null ∧ futureB = null then some ⟨c, null, []⟩ else
    let c := c.saveAsyncContext
    let c := if futureA ≠ null then c.pushTask pollA futureA else c
    let c := if futureB ≠ null then c.pushStack [(pollB, futureB)] else c
    (allLoop poll futureB fuel (futureA = null) (futureB = null) c).map fun w =>
      { w with context := w.context.restoreAsyncContext }

def runLoop : ℕ → Context F World → Option (Context F World)
  | 0, _ => none
  | n + 1, c =>
      match c.asyncTasks with
      | [] => some c
      | task :: _ => (poll c task).bind fun (c₁, ret) => runLoop n (if ret = 1 then c₁.popTask else c₁)

/-- `ntsc_async_run`. Unless `NTSC_LEGACY_ASYNC` is set the root runs as a goroutine, which
has a context of its own. -/
def asyncRun (legacy : Bool) (fuel : ℕ) (c : Context F World) (pollRoot : F) (root : Int) :
    Option (Context F World) :=
  if root = null ∨ legacy = false then some c
  else runLoop poll fuel (c.saveAsyncContext.pushTask pollRoot root)

end Waits

section Exec

variable {F : Type u} {World : Type v}

/-- Run a script. `code` is the compiled program: what each poll function does with each
future. Fuel bounds loops and nesting together. -/
def exec (code : F → Int → Script F World) (legacy : Bool) :
    ℕ → Context F World → Script F World → Option (Context F World × Int)
  | 0, _, _ => none
  | _ + 1, c, .ret value => some (c, value)
  | n + 1, c, .access act next => exec code legacy n { c with world := act c.world } (next (act c.world))
  | n + 1, c, .push poll future next => exec code legacy n (c.asyncPush poll future) next
  | n + 1, c, .waitAny pollA futureA pollB futureB next =>
      (asyncWaitAny (fun c t => exec code legacy n c (code t.1 t.2)) n c pollA futureA pollB futureB).bind
        fun w => exec code legacy n w.context (next w.result)
  | n + 1, c, .waitAll pollA futureA pollB futureB next =>
      (asyncWaitAll (fun c t => exec code legacy n c (code t.1 t.2)) n c pollA futureA pollB futureB).bind
        fun w => exec code legacy n w.context (next w.result)
  | n + 1, c, .run poll root next =>
      (asyncRun (fun c t => exec code legacy n c (code t.1 t.2)) legacy n c poll root).bind
        fun c => exec code legacy n c next

/-- Call a poll function on its future. -/
def callPoll (code : F → Int → Script F World) (legacy : Bool) (fuel : ℕ) (c : Context F World)
    (task : F × Int) : Option (Context F World × Int) :=
  exec code legacy fuel c (code task.1 task.2)

end Exec

end Neutron
