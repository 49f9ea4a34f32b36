/-
`task` (Task.hpp, Task.cpp): an assignee, a description and a duration, built from the three fields of a POST body and
printed back as JSON for the admin report and for the completion update.

Durations are boost::posix_time::time_duration: a signed tick count of microseconds. `minutes()` is the minutes FIELD of
the normalized hours:minutes:seconds form, with C++'s truncating division.
-/
import Gss.Server.Json

namespace Gss

/-- boost::posix_time::time_duration, in microseconds -/
structure TimeDuration where
  ticks : ℤ
deriving DecidableEq, Repr

/-- boost::posix_time::minutes -/
def minutes (n : ℤ) : TimeDuration := ⟨n * 60 * 1000000⟩

/-- time_duration::minutes -/
def TimeDuration.minutes (d : TimeDuration) : ℤ := (d.ticks.tdiv (60 * 1000000)).tmod 60

structure Task where
  assignee : String
  desc : String
  duration : TimeDuration
deriving DecidableEq, Repr

/-- the constructor task(assignee, desc, duration) -/
def Task.make (assignee desc : String) (duration : ℤ) : Task := ⟨assignee, desc, Gss.minutes duration⟩

/-- task::serialize -/
def Task.serialize (t : Task) : Json :=
  .object [("description", .string t.desc), ("duration", .number t.duration.minutes), ("name", .string t.assignee)]

/-- the message of process_tasks's completion handler: the serialized task with type "update" -/
def Task.updateMsg (t : Task) : Json :=
  .object [("description", .string t.desc), ("duration", .number t.duration.minutes), ("name", .string t.assignee),
    ("type", .string "update")]

end Gss
