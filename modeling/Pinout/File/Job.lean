import Pinout.File.Disk

/-!
# Pinout.File.Job

Computations that use files. A job is a value: it is done, or it asks for something and goes on with
the answer. `Job.run` answers from a disk, and a program answers from the disk of its machine.

`run_bind` says that a job that goes on with another one hands over the disk.
-/

namespace Pinout
namespace File

inductive Job (α : Type) where
  | done (a : α)
  | read (path : Path) (next : Except Fault Text → Job α)
  | isFile (path : Path) (next : Bool → Job α)
  | write (path : Path) (t : Text) (next : Except Fault Unit → Job α)

namespace Job

def bind {α β : Type} : Job α → (α → Job β) → Job β
  | done a, f => f a
  | read path next, f => read path fun answer => (next answer).bind f
  | isFile path next, f => isFile path fun answer => (next answer).bind f
  | write path t next, f => write path t fun answer => (next answer).bind f

instance : Monad Job where
  pure := done
  bind := bind

/-- The result of a job on a disk, and the disk behind it. -/
def run {α : Type} (d : Disk) : Job α → α × Disk
  | done a => (a, d)
  | read path next => (next (d.read path)).run d
  | isFile path next => (next (d.isFile path)).run d
  | write path t next =>
    match d.write path t with
    | .ok d => (next (.ok ())).run d
    | .error fault => (next (.error fault)).run d

theorem run_bind {α β : Type} (d : Disk) (j : Job α) (f : α → Job β) :
    (j.bind f).run d = (f (j.run d).1).run (j.run d).2 := by
  induction j generalizing d with
  | done a => rfl
  | read path next ih => exact ih _ d
  | isFile path next ih => exact ih _ d
  | write path t next ih =>
    simp only [bind, run]
    split
    · exact ih _ _
    · exact ih _ _

end Job
end File
end Pinout
