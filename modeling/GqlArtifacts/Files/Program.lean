import GqlArtifacts.Files.Tree
import GqlArtifacts.Text.Utf8

/-!
# Programs over files

A `Program` is a finite sequence of single file operations, each of which may look at the answers
before it. `Program.run` carries it out on a tree. Since the operations stand in the program one by
one, it can also be stopped between any two of them, or be given answers of failure.
-/

namespace GqlArtifacts.Files

/-- One operation on files. -/
inductive Op where
  | kind (p : Path)
  | read (p : Path)
  | list (p : Path)
  | write (p : Path) (content : ByteArray)
  | makeDirectory (p : Path)
  | rename (src dst : Path)
  | remove (p : Path)

namespace Op

def Answer : Op → Type
  | kind _ => Except FileError NodeKind
  | read _ => Except FileError ByteArray
  | list _ => Except FileError (List String)
  | _ => Except FileError Unit

/-- The tree after a change, if it succeeds. -/
def commit (t : Tree) : Except FileError Tree → Except FileError Unit × Tree
  | .ok t' => (.ok (), t')
  | .error e => (.error e, t)

/-- The answer to an operation and the tree after it. -/
def run (t : Tree) : (op : Op) → op.Answer × Tree
  | kind p => (t.kind p, t)
  | read p => (t.read p, t)
  | list p => (t.list p, t)
  | write p content => commit t (t.write p content)
  | makeDirectory p => commit t (t.makeDirectory p)
  | rename src dst => commit t (t.rename src dst)
  | remove p => commit t (t.remove p)

end Op

inductive Program (α : Type) where
  | done (a : α)
  | step (op : Op) (next : op.Answer → Program α)

namespace Program
variable {α β γ : Type}

protected def bind : Program α → (α → Program β) → Program β
  | done a, f => f a
  | step op next, f => step op fun answer => (next answer).bind f

instance : Monad Program where
  pure := done
  bind := Program.bind

@[simp] theorem done_bind (a : α) (f : α → Program β) : done a >>= f = f a := rfl

@[simp] theorem pure_eq_done (a : α) : (pure a : Program α) = done a := rfl

theorem step_bind (op : Op) (next : op.Answer → Program α) (f : α → Program β) :
    step op next >>= f = step op fun answer => next answer >>= f := rfl

theorem bind_done (p : Program α) : p >>= done = p := by
  induction p with
  | done a => rfl
  | step op next ih => rw [step_bind]; congr 1; funext answer; exact ih answer

theorem bind_assoc (p : Program α) (f : α → Program β) (g : β → Program γ) :
    p >>= f >>= g = p >>= fun a => f a >>= g := by
  induction p with
  | done a => rfl
  | step op next ih => simp only [step_bind]; congr 1; funext answer; exact ih answer

instance : LawfulMonad Program :=
  LawfulMonad.mk' Program (fun p => bind_done p) (fun _ _ => rfl) bind_assoc

/-- Carries out a program: its result and the tree after it. -/
def run : Program α → Tree → α × Tree
  | done a, t => (a, t)
  | step op next, t => (next (op.run t).1).run (op.run t).2

@[simp] theorem run_done (a : α) (t : Tree) : (done a).run t = (a, t) := rfl

theorem run_bind (p : Program α) (f : α → Program β) (t : Tree) :
    (p >>= f).run t = (f (p.run t).1).run (p.run t).2 := by
  induction p generalizing t with
  | done a => rfl
  | step op next ih => exact ih _ _

/-- The program of one operation. -/
def perform (op : Op) : Program op.Answer := step op done

def kind (p : Path) : Program (Except FileError NodeKind) := perform (.kind p)
def read (p : Path) : Program (Except FileError ByteArray) := perform (.read p)
def list (p : Path) : Program (Except FileError (List String)) := perform (.list p)
def write (p : Path) (content : ByteArray) : Program (Except FileError Unit) :=
  perform (.write p content)
def makeDirectory (p : Path) : Program (Except FileError Unit) := perform (.makeDirectory p)
def rename (src dst : Path) : Program (Except FileError Unit) := perform (.rename src dst)
def remove (p : Path) : Program (Except FileError Unit) := perform (.remove p)

def isFile (p : Path) : Program Bool := do
  match ← kind p with
  | .ok .file => return true
  | _ => return false

def isDirectory (p : Path) : Program Bool := do
  match ← kind p with
  | .ok .directory => return true
  | _ => return false

def exists? (p : Path) : Program Bool := do
  match ← kind p with
  | .ok _ => return true
  | .error _ => return false

/-- The content of a file as text. -/
def readText (p : Path) : Program (Except FileError String) := do
  match ← read p with
  | .error e => return .error e
  | .ok content =>
    match Text.ofBytes? content with
    | some s => return .ok s
    | none => return .error .invalidText

end Program

end GqlArtifacts.Files
