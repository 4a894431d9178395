import OsUnix.VirtualFc.Model

/-!
# What is acquired is released

`virtual_fc_exit` releases what a load has acquired. The error exits of `virtual_fc_init` keep the
registration, one of them frees a null object, and that of `virtual_fc_fill_sb` drops an inode
twice.
-/

namespace OsUnix.VirtualFc
open Kernel

variable {s t : Module} {event : Event} {grants : Grants} {newInode dMakeRoot : Bool}

def Module.Owns (s : Module) : Resource → Prop
  | .registration n | .area n | .cache n | .object n => s.loaded = true ∧ n = s.load
  | .inode m => m ∈ s.mounts
  | .null => False

def Module.held (s : Module) : Set Resource := {r | s.Owns r}

structure Balance (t : Module) : Prop where
  released : ∀ r, t.heap.freed.count r ≤ t.heap.allocated.count r
  kept : ∀ r, t.heap.freed.count r < t.heap.allocated.count r → t.Owns r
  registered : t.loaded = false → t.registered = none

def Granted (s : Module) : Event → Prop
  | .load grants => s.loaded = false → grants.registerFilesystem = true →
      grants.kmalloc = true ∧ grants.kmemCacheCreate = true ∧ grants.kmemCacheAlloc = true
  | .mount newInode dMakeRoot => s.loaded = true → newInode = true → dMakeRoot = true
  | .unmount _ | .unload => True

def Resource.Within (loads mounts : Nat) : Resource → Prop
  | .registration n | .area n | .cache n | .object n => n ≤ loads
  | .inode m => m ≤ mounts
  | .null => False

structure Inv (s : Module) : Prop where
  accounts : s.heap.Accounts s.held
  registered : s.registered = if s.loaded then some s.load else none
  pointers : s.loaded = true →
    s.area = some s.load ∧ s.cache = some s.load ∧ s.object = some s.load
  within : ∀ r ∈ s.heap.allocated, r.Within s.load s.mountCount
  mounts : s.mounts.Nodup

theorem Inv.start : Inv .unloaded where
  accounts := Heap.accounts_empty.congr fun r => by
    cases r <;> simp [Module.held, Module.Owns, Module.unloaded]
  registered := rfl
  pointers := nofun
  within := nofun
  mounts := List.nodup_nil

theorem Inv.balance (inv : Inv s) : Balance s where
  released := inv.accounts.balanced.count_le
  kept _ less := inv.accounts.held_of_count less
  registered unloaded := by rw [inv.registered, unloaded]; rfl

theorem Inv.new (inv : Inv s) {r : Resource} (new : ¬ r.Within s.load s.mountCount) :
    r ∉ s.heap.allocated :=
  fun mem => new (inv.within r mem)

theorem virtualFcInit_granted (free : s.registered = none) :
    s.virtualFcInit ⟨true, true, true, true⟩ = { s with
      loaded := true
      registered := some s.load
      area := some s.load
      cache := some s.load
      object := some s.load
      heap := (((s.heap.alloc (.registration s.load)).alloc (.area s.load)).alloc
        (.cache s.load)).alloc (.object s.load) } := by
  rw [Module.virtualFcInit, if_pos ⟨rfl, free⟩]
  rfl

theorem virtualFcInit_refused (refused : grants.registerFilesystem = false) :
    s.virtualFcInit grants = s := by
  rw [Module.virtualFcInit, if_neg (by rw [refused]; rintro ⟨⟨⟩, -⟩)]

theorem Resource.Within.mono {r : Resource} {loads mounts loads' mounts' : Nat}
    (within : r.Within loads mounts) (more : loads ≤ loads') (again : mounts ≤ mounts') :
    r.Within loads' mounts' := by
  cases r with
  | inode m => exact Nat.le_trans within again
  | null => exact within
  | _ n => exact Nat.le_trans within more

theorem mem_held {r : Resource} : r ∈ s.held ↔ s.Owns r := Iff.rfl

theorem Inv.insmod (inv : Inv s) (unloaded : s.loaded = false) : Inv s.insmod where
  accounts := inv.accounts.congr fun r => by
    cases r <;> simp [mem_held, Module.Owns, Module.insmod, unloaded]
  registered := by
    show s.registered = if s.loaded then some (s.load + 1) else none
    rw [inv.registered, unloaded]
    rfl
  pointers loaded := by
    cases unloaded.symm.trans loaded
  within r mem := (inv.within r mem).mono (Nat.le_succ s.load) (Nat.le_refl _)
  mounts := inv.mounts

theorem Inv.loads (inv : Inv s) (unloaded : s.loaded = false) :
    Inv (s.insmod.virtualFcInit ⟨true, true, true, true⟩) := by
  have free : s.insmod.registered = none := by
    rw [(inv.insmod unloaded).registered, show s.insmod.loaded = false from unloaded]
    rfl
  have new {r : Resource} (next : ¬ r.Within s.load s.mountCount) : r ∉ s.heap.allocated :=
    inv.new next
  have later : ¬ s.load + 1 ≤ s.load := Nat.not_succ_le_self _
  rw [virtualFcInit_granted free]
  constructor
  · have accounts := (((inv.accounts.alloc (new (r := .registration (s.load + 1)) later)).alloc
      (r := .area (s.load + 1)) ?_).alloc (r := .cache (s.load + 1)) ?_).alloc
      (r := .object (s.load + 1)) ?_
    · refine accounts.congr fun r => ?_
      cases r <;> simp [mem_held, Module.Owns, Module.insmod, unloaded]
    all_goals simp [Heap.alloc, new, later, Resource.Within]
  · rfl
  · exact fun _ => ⟨rfl, rfl, rfl⟩
  · intro r mem
    have within (r : Resource) (mem : r ∈ s.heap.allocated) : r.Within (s.load + 1) s.mountCount :=
      (inv.within r mem).mono (Nat.le_succ s.load) (Nat.le_refl _)
    simp only [Heap.alloc, Module.insmod, List.mem_cons] at mem
    rcases mem with rfl | rfl | rfl | rfl | mem
    · exact Nat.le_refl _
    · exact Nat.le_refl _
    · exact Nat.le_refl _
    · exact Nat.le_refl _
    · exact within r mem
  · exact inv.mounts

theorem virtualFcExit_eq (inv : Inv s) (loaded : s.loaded = true) :
    s.virtualFcExit = { s with
      loaded := false
      registered := none
      heap := (((s.heap.free (some (.object s.load))).free (some (.cache s.load))).free
        (some (.area s.load))).free (some (.registration s.load)) } := by
  obtain ⟨area, cache, object⟩ := inv.pointers loaded
  have registered := inv.registered
  rw [loaded, if_pos rfl] at registered
  simp [Module.virtualFcExit, Module.unregisterFilesystem, Module.kfree, Module.kmemCacheDestroy,
    Module.kmemCacheFree, area, cache, object, registered]

theorem Inv.unloads (inv : Inv s) (loaded : s.loaded = true) (unused : s.mounts = []) :
    Inv s.virtualFcExit := by
  rw [virtualFcExit_eq inv loaded]
  have owned : .object s.load ∈ s.held := ⟨loaded, rfl⟩
  constructor
  · have accounts := (((inv.accounts.free owned).free (r := .cache s.load) ?_).free
      (r := .area s.load) ?_).free (r := .registration s.load) ?_
    · refine accounts.congr fun r => ?_
      cases r <;> simp [mem_held, Module.Owns, loaded, unused]
    all_goals simp [mem_held, Module.Owns, loaded]
  · rfl
  · exact nofun
  · exact inv.within
  · exact inv.mounts

theorem Inv.counts (inv : Inv s) : Inv { s with mountCount := s.mountCount + 1 } where
  accounts := inv.accounts
  registered := inv.registered
  pointers := inv.pointers
  within r mem := (inv.within r mem).mono (Nat.le_refl _) (Nat.le_succ s.mountCount)
  mounts := inv.mounts

theorem Inv.mount_new (inv : Inv s) : .inode (s.mountCount + 1) ∉ s.heap.allocated :=
  inv.new (Nat.not_succ_le_self s.mountCount)

theorem Inv.mounts_true (inv : Inv s) : Inv (s.virtualFcMount true true) where
  accounts := (inv.accounts.alloc inv.mount_new).congr fun r => by
    cases r <;> simp [mem_held, Module.Owns, Module.virtualFcMount, Module.virtualFcFillSb]
  registered := inv.registered
  pointers := inv.pointers
  within := List.forall_mem_cons.mpr ⟨Nat.le_refl _, inv.counts.within⟩
  mounts := by
    refine List.nodup_cons.mpr ⟨fun mem => ?_, inv.mounts⟩
    exact inv.mount_new ((inv.accounts.live (.inode (s.mountCount + 1))).mpr mem).1

theorem Inv.unmounts (inv : Inv s) {mount : Nat} (mem : mount ∈ s.mounts) :
    Inv (s.killSb mount) where
  accounts := by
    have owned : .inode mount ∈ s.held := mem
    refine (inv.accounts.free owned).congr fun r => ?_
    cases r <;> simp [mem_held, Module.Owns, Module.killSb, inv.mounts.mem_erase_iff, and_comm]
  registered := inv.registered
  pointers := inv.pointers
  within := inv.within
  mounts := inv.mounts.erase mount

theorem Inv.step (inv : Inv s) (granted : Granted s event) (step : s.step event = some t) :
    Inv t := by
  cases event with
  | load grants =>
      obtain ⟨idle, eq⟩ := Option.ite_none_left_eq_some.mp step
      cases eq
      have unloaded : s.loaded = false := Bool.eq_false_of_not_eq_true idle
      obtain ⟨_ | _, kmalloc, create, alloc⟩ := grants
      · rw [virtualFcInit_refused rfl]
        exact inv.insmod unloaded
      · obtain ⟨rfl, rfl, rfl⟩ := granted unloaded rfl
        exact inv.loads unloaded
  | mount newInode dMakeRoot =>
      obtain ⟨loaded, eq⟩ := Option.ite_none_right_eq_some.mp step
      cases eq
      cases newInode with
      | true =>
          rw [granted loaded rfl]
          exact inv.mounts_true
      | false => exact inv.counts
  | unmount mount =>
      obtain ⟨mem, eq⟩ := Option.ite_none_right_eq_some.mp step
      cases eq
      exact inv.unmounts mem
  | unload =>
      obtain ⟨ready, eq⟩ := Option.ite_none_right_eq_some.mp step
      cases eq
      exact inv.unloads ready.1 ready.2

theorem registered_of_refused (free : s.registered = none) (unloaded : s.loaded = false)
    (asked : grants.registerFilesystem = true)
    (refused : ¬ (grants.kmalloc = true ∧ grants.kmemCacheCreate = true ∧
      grants.kmemCacheAlloc = true)) :
    (s.virtualFcInit grants).loaded = false ∧
      (s.virtualFcInit grants).registered = some s.load := by
  rw [Module.virtualFcInit, if_pos ⟨asked, free⟩]
  obtain ⟨_, _ | _, _ | _, _ | _⟩ := grants <;>
    first | exact ⟨unloaded, rfl⟩ | exact absurd ⟨rfl, rfl, rfl⟩ refused

theorem granted_of_balance (inv : Inv s) (step : s.step event = some t) (balance : Balance t) :
    Granted s event := by
  cases event with
  | load grants =>
      intro unloaded asked
      by_contra refused
      have free : s.insmod.registered = none := by
        rw [(inv.insmod unloaded).registered, show s.insmod.loaded = false from unloaded]
        rfl
      obtain ⟨still, name⟩ := registered_of_refused free unloaded asked refused
      simp only [Module.step, unloaded, Bool.false_eq_true, if_false] at step
      cases step
      cases name.symm.trans (balance.registered still)
  | mount newInode dMakeRoot =>
      intro loaded made
      by_contra fails
      subst made
      obtain rfl : dMakeRoot = false := Bool.eq_false_of_not_eq_true fails
      simp only [Module.step, loaded, if_true] at step
      cases step
      have twice := balance.released (.inode (s.mountCount + 1))
      have once : s.heap.allocated.count (.inode (s.mountCount + 1)) = 0 :=
        List.count_eq_zero.mpr inv.mount_new
      simp [Module.virtualFcMount, Module.virtualFcFillSb, Heap.alloc, Heap.free, once] at twice
  | unmount _ => trivial
  | unload => trivial

/-- The books of a run are in order exactly when nothing fails in it behind `register_filesystem`
and `d_make_root` never fails. -/
theorem balance_iff (events : List Event) :
    lifecycle.Always (fun _ _ t _ => Balance t) .unloaded events ↔
      lifecycle.Before Granted .unloaded events := by
  apply Component.always_iff_before Inv.start
  · intro s event t r inv step
    have step := Component.silent_step.mp step
    exact ⟨granted_of_balance inv step, fun granted => (inv.step granted step).balance⟩
  · intro s event inv stuck
    have stuck := Component.silent_step_none.mp stuck
    cases event with
    | load grants =>
        intro unloaded
        simp [Module.step, unloaded] at stuck
    | mount newInode dMakeRoot =>
        intro loaded
        simp [Module.step, loaded] at stuck
    | unmount _ => trivial
    | unload => trivial
  · intro s event t r inv granted step
    exact inv.step granted (Component.silent_step.mp step)

theorem balance_fails : ¬ lifecycle.Always (fun _ _ t _ => Balance t) .unloaded
    [.load ⟨true, true, true, false⟩] := by
  intro always
  obtain ⟨balance, -⟩ := always _ _ rfl
  exact absurd (balance.released .null) (by decide)

end OsUnix.VirtualFc
