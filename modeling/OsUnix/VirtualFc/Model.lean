import OsUnix.Kernel.Component
import OsUnix.Kernel.Resource

/-!
# The virtual file system

`virtual_fc_init`, `virtual_fc_exit` and `virtual_fc_fill_sb` of `6-semestr/lab8/virtual_fc.c`. What
a load acquires goes by the number of the load, and an inode by the number of the mount.
-/

namespace OsUnix.VirtualFc
open Kernel

/-- `null` is no resource: it stands for what a null pointer points to. -/
inductive Resource
  | registration (load : Nat)
  | area (load : Nat)
  | cache (load : Nat)
  | object (load : Nat)
  | inode (mount : Nat)
  | null
deriving DecidableEq, Repr

/-- `registered` is the load whose `virtual_fc_type` has the name `virtual_fc`; `area`, `cache` and
`object` are `cache_mem_area`, `cache` and `*cache_mem_area`. -/
structure Module where
  load : Nat
  loaded : Bool
  registered : Option Nat
  area : Option Nat
  cache : Option Nat
  object : Option Nat
  mounts : List Nat
  mountCount : Nat
  heap : Heap Resource

structure Grants where
  registerFilesystem : Bool
  kmalloc : Bool
  kmemCacheCreate : Bool
  kmemCacheAlloc : Bool
deriving DecidableEq, Repr

namespace Module

def unloaded : Module where
  load := 0
  loaded := false
  registered := none
  area := none
  cache := none
  object := none
  mounts := []
  mountCount := 0
  heap := .empty

def registerFilesystem (s : Module) : Module :=
  { s with registered := some s.load, heap := s.heap.alloc (.registration s.load) }

def unregisterFilesystem (s : Module) : Module :=
  { s with registered := none, heap := s.heap.free (s.registered.map .registration) }

def kmalloc (s : Module) : Module :=
  { s with area := some s.load, heap := s.heap.alloc (.area s.load) }

def kfree (s : Module) : Module := { s with heap := s.heap.free (s.area.map .area) }

def kmemCacheCreate (s : Module) : Module :=
  { s with cache := some s.load, heap := s.heap.alloc (.cache s.load) }

def kmemCacheDestroy (s : Module) : Module := { s with heap := s.heap.free (s.cache.map .cache) }

def kmemCacheAlloc (s : Module) : Module :=
  { s with object := some s.load, heap := s.heap.alloc (.object s.load) }

/-- Unlike the two others it takes no null pointer. -/
def kmemCacheFree (s : Module) : Module :=
  { s with heap := s.heap.free (some (s.object.elim .null .object)) }

def insmod (s : Module) : Module :=
  { s with load := s.load + 1, area := none, cache := none, object := none }

def virtualFcInit (s : Module) (grants : Grants) : Module :=
  if grants.registerFilesystem = true ∧ s.registered = none then
    let s := s.registerFilesystem
    if grants.kmalloc then
      let s := s.kmalloc
      if grants.kmemCacheCreate then
        let s := s.kmemCacheCreate
        if grants.kmemCacheAlloc then { s.kmemCacheAlloc with loaded := true }
        else s.kmemCacheFree.kmemCacheDestroy.kfree
      else s.kmemCacheDestroy.kfree
    else s.kfree
  else s

def virtualFcExit (s : Module) : Module :=
  { s.kmemCacheFree.kmemCacheDestroy.kfree.unregisterFilesystem with loaded := false }

/-- When `d_make_root` fails it has dropped the inode, which `iput` then drops again. -/
def virtualFcFillSb (s : Module) (newInode dMakeRoot : Bool) : Module :=
  if newInode then
    let s := { s with heap := s.heap.alloc (.inode s.mountCount) }
    if dMakeRoot then { s with mounts := s.mountCount :: s.mounts }
    else { s with
      heap := (s.heap.free (some (.inode s.mountCount))).free (some (.inode s.mountCount)) }
  else s

def virtualFcMount (s : Module) (newInode dMakeRoot : Bool) : Module :=
  { s with mountCount := s.mountCount + 1 }.virtualFcFillSb newInode dMakeRoot

def killSb (s : Module) (mount : Nat) : Module :=
  { s with mounts := s.mounts.erase mount, heap := s.heap.free (some (.inode mount)) }

end Module

inductive Event
  | load (grants : Grants)
  | mount (newInode dMakeRoot : Bool)
  | unmount (mount : Nat)
  | unload
deriving DecidableEq, Repr

/-- A mounted file system holds a reference to its module, which `owner` names. -/
def Module.step (s : Module) : Event → Option Module
  | .load grants => if s.loaded then none else some (s.insmod.virtualFcInit grants)
  | .mount newInode dMakeRoot =>
      if s.loaded then some (s.virtualFcMount newInode dMakeRoot) else none
  | .unmount mount => if mount ∈ s.mounts then some (s.killSb mount) else none
  | .unload => if s.loaded = true ∧ s.mounts = [] then some s.virtualFcExit else none

def lifecycle : Component Module Event Unit := .silent .unloaded Module.step

end OsUnix.VirtualFc
