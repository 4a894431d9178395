import OsUnix.Fortune.Model
import OsUnix.Kernel.Resource

/-!
# Loading and unloading

`fortune_init` and `fortune_exit`, one call of the kernel at a time. A region and a `/proc` entry go
by the number of the load attempt that asked for them.
-/

namespace OsUnix.Fortune
open Kernel

inductive Entry
  | fortune
  | fortuneDir
  | fortuneLink
deriving DecidableEq, Repr

inductive Stage
  | unloaded
  | vmalloc
  | create (e : Entry)
  | check
  | loaded
  | remove (e : Entry)
  | vfree
deriving DecidableEq, Repr

def Stage.afterCreate : Entry → Stage
  | .fortune => .create .fortuneDir
  | .fortuneDir => .create .fortuneLink
  | .fortuneLink => .check

def Stage.afterRemove : Entry → Stage
  | .fortune => .remove .fortuneDir
  | .fortuneDir => .remove .fortuneLink
  | .fortuneLink => .vfree

/-- `created` is `proc_entry`, `proc_directory` and `proc_link`; `registered` is what `/proc`
has. -/
structure Module where
  stage : Stage
  load : Nat
  ret : Int
  cookiePot : Option Nat
  created : Entry → Option Nat
  pot : Pot
  heap : Heap Nat
  registered : Entry → Option Nat

namespace Module

def unloaded (outside : Memory) : Module where
  stage := .unloaded
  load := 0
  ret := 0
  cookiePot := none
  created _ := none
  pot := .fresh outside
  heap := .empty
  registered _ := none

def insmod (s : Module) : Module :=
  { s with
    stage := .vmalloc
    load := s.load + 1
    ret := 0
    cookiePot := none
    created := fun _ => none }

def vmalloc (outside : Memory) (s : Module) (granted : Bool) : Module :=
  if granted then
    { s with
      stage := .create .fortune
      cookiePot := some s.load
      pot := .fresh outside
      heap := s.heap.alloc s.load }
  else { s with stage := .unloaded, ret := -enomem }

/-- `proc_create`, `proc_mkdir` and `proc_symlink` fail when they are refused memory and when the
name is taken. -/
def create (s : Module) (e : Entry) (granted : Bool) : Module :=
  if granted ∧ s.registered e = none then
    { s with
      stage := .afterCreate e
      created := Function.update s.created e (some s.load)
      registered := Function.update s.registered e (some s.load) }
  else
    { s with
      stage := .afterCreate e
      ret := -enomem
      created := Function.update s.created e none }

def check (s : Module) : Module :=
  if s.ret = -enomem then { s with stage := .unloaded, heap := s.heap.free s.cookiePot }
  else { s with stage := .loaded, pot := { s.pot with cookieIndex := 0, nextFortune := 0 } }

def remove (s : Module) (e : Entry) : Module :=
  { s with
    stage := .afterRemove e
    registered := if s.created e = none then s.registered else Function.update s.registered e none }

def vfree (s : Module) : Module :=
  { s with stage := .unloaded, heap := s.heap.free s.cookiePot }

def advance (outside : Memory) (s : Module) (granted : Bool) : Option Module :=
  match s.stage with
  | .vmalloc => some (s.vmalloc outside granted)
  | .create e => some (s.create e granted)
  | .check => some s.check
  | .remove e => some (s.remove e)
  | .vfree => some s.vfree
  | .unloaded | .loaded => none

/-- A call goes to the pot of the load that registered the entry. Nothing is known of a pot that is
not live. -/
def call (outside : Memory) (s : Module) (op : Op) : Option (Module × Option Answer) :=
  match s.registered .fortune with
  | none => none
  | some n =>
      if s.heap.Live n then
        ((component outside).step s.pot op).map fun r => ({ s with pot := r.1 }, some r.2)
      else some (s, none)

end Module

inductive Event
  | load
  | run (granted : Bool)
  | unload
  | call (op : Op)
deriving DecidableEq, Repr

def lifecycle (outside : Memory) : Component Module Event (Option Answer) where
  start := .unloaded outside
  step s
    | .load => if s.stage = .unloaded then some (s.insmod, none) else none
    | .run granted => (s.advance outside granted).map fun t => (t, none)
    | .unload =>
        if s.stage = .loaded then some ({ s with stage := .remove .fortune }, none) else none
    | .call op => s.call outside op

end OsUnix.Fortune
