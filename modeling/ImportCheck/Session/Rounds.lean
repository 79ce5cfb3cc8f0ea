import ImportCheck.Session.Task

/-!
Work in rounds, the order in which a single worker does it. In a round every leaf that is due is worked at
once, from left to right; what a leaf starts comes right after it. When nothing is due any more the next
round begins.
-/
namespace ImportCheck

namespace Task

mutual
def isFinished : Task → Bool
  | done _ => true
  | group parts => areFinished parts
  | _ => false

def areFinished : List Task → Bool
  | [] => true
  | t :: ts => isFinished t && areFinished ts
end

mutual
/-- The first leaf that is due. -/
def next? (now : Nat) : Task → Option (List Nat)
  | start _ => some []
  | reading _ _ due => if due ≤ now then some [] else none
  | resolving _ _ _ _ _ due => if due ≤ now then some [] else none
  | walk _ _ parts => nextAmong? now 0 parts
  | group parts => nextAmong? now 0 parts
  | done _ => none

def nextAmong? (now i : Nat) : List Task → Option (List Nat)
  | [] => none
  | t :: ts =>
    match next? now t with
    | some place => some (i :: place)
    | none => nextAmong? now (i + 1) ts
end

end Task

/-- A session at work. -/
structure Work where
  session : Session
  task : Task
  now : Nat := 0

namespace Work

/-- Works at the first leaf that is due, or else waits for the next round. -/
def step (w : Surroundings) (work : Work) : Work :=
  match work.task.next? work.now with
  | some place =>
    let (session, task) := work.task.advance w work.now place work.session
    { work with session, task }
  | none => { work with now := work.now + 1 }

/-- Works until all is done, for at most a number of steps. -/
def run (w : Surroundings) : Nat → Work → Work
  | 0, work => work
  | n + 1, work => if work.task.isFinished then work else run w n (work.step w)

end Work

/-- What comes of requests that are worked on together. -/
def Session.perform (s : Session) (w : Surroundings) (steps : Nat) (task : Task) : Session × Task :=
  let work := Work.run w steps { session := s, task }
  (work.session, work.task)

end ImportCheck
