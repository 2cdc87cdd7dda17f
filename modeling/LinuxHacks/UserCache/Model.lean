import LinuxHacks.Errno
import LinuxHacks.Uwrr.Model

/-!
# The cache of users (`HW4/kernel/user.c`)

`uidhash_table` with the functions on it, and the two system calls for the
weights (`HW4/kernel/sched.c`), called by any number of tasks. A step is one
section under `uidhash_lock` or one access outside of it; `alloc_uid` has two
such sections, with the allocation between them.

A reference that `alloc_uid` or `find_user` gave to a caller has a number, under
which it is released once. `__count` is an integer: every reference is held in a
pointer somewhere, and 32 bits of address space have no room for 2^31 of them.
Of `struct user_struct` the fields for UWRR and the cache are here; the others
(`processes`, `files`, keyrings) are never read by these functions.
-/

namespace LinuxHacks.UserCache

open LinuxHacks.Lib
open LinuxHacks.Uwrr (UWRR_DEFAULT_WEIGHT UWRR_START_SLICE dec32 u32)

/-- `uid_t`. -/
abbrev Uid := Nat

/-- The address of a `struct user_struct`. -/
abbrev Addr := Nat

abbrev TaskId := Nat

structure UserStruct where
  uid : Uid
  count : Int
  uwrrWeight : Nat
  uwrrTimeSlice : Nat
deriving DecidableEq, Repr

/-- `uidhash_table`, each list from its head, and the objects of `uid_cachep`. -/
structure Cache where
  table : Nat → List Addr
  user : Addr → UserStruct
  allocated : Addr → Bool

def Cache.modUser (c : Cache) (a : Addr) (f : UserStruct → UserStruct) : Cache :=
  { c with user := Function.update c.user a (f (c.user a)) }

/-! ## `user.c` -/

/-- `__uidhashfn`. -/
def uidhashfn (uid : Uid) : Nat := ((uid >>> 8) + uid) &&& 255

/-- `uid_hash_find`: the first struct of the list with the uid, with a new
reference. -/
def uidHashFind (c : Cache) (uid : Uid) : Option (Addr × Cache) :=
  ((c.table (uidhashfn uid)).find? fun a => decide ((c.user a).uid = uid)).map fun a =>
    (a, c.modUser a fun u => { u with count := u.count + 1 })

def uidHashInsert (c : Cache) (a : Addr) (uid : Uid) : Cache :=
  { c with table := Function.update c.table (uidhashfn uid) (a :: c.table (uidhashfn uid)) }

/-- `kmem_cache_free`. -/
def cacheFree (c : Cache) (a : Addr) : Cache :=
  { c with allocated := Function.update c.allocated a false }

/-- `kmem_cache_alloc` and the fields `alloc_uid` gives a new struct. -/
def cacheAlloc (c : Cache) (a : Addr) (uid : Uid) : Cache :=
  { c with
    allocated := Function.update c.allocated a true
    user := Function.update c.user a ⟨uid, 1, UWRR_DEFAULT_WEIGHT, UWRR_START_SLICE⟩ }

/-- `free_uid`. The last reference frees the struct, unless its UWRR data was
modified. -/
def freeUid (c : Cache) (a : Addr) : Cache :=
  let c := c.modUser a fun u => { u with count := u.count - 1 }
  if (c.user a).count = 0 then
    if (c.user a).uwrrWeight = UWRR_DEFAULT_WEIGHT ∧
        (c.user a).uwrrTimeSlice = UWRR_START_SLICE then
      cacheFree { c with table := fun b => (c.table b).erase a } a
    else c
  else c

/-! ## The tasks -/

/-- Who called `alloc_uid`. -/
inductive Caller where
  /-- A caller that keeps the reference. -/
  | keep
  | getuserweight
  | setuserweight (weight : Nat)
deriving DecidableEq, Repr

/-- What the last system call of a task returned. -/
inductive Result where
  | nothing
  | code (value : Int)
  /-- A weight, and of which user. -/
  | weight (uid : Uid) (value : Nat)
deriving DecidableEq, Repr

inductive Pc where
  | ready (r : Result)
  /-- In `alloc_uid`, before the first section. -/
  | searching (uid : Uid) (caller : Caller)
  /-- Not found. -/
  | missed (uid : Uid) (caller : Caller)
  /-- Before the second section, with a struct of its own. -/
  | allocated (uid : Uid) (new : Addr) (caller : Caller)
  /-- `alloc_uid` has returned. -/
  | got (uid : Uid) (up : Addr) (caller : Caller)
  /-- Before the call of `free_uid` that ends the call. -/
  | releasing (up : Addr) (r : Result)
deriving DecidableEq, Repr

/-- `current t` is `current->user` of a live task. The last two fields are
history, newest first: `sets` has the weights that were set, `start` what `sets`
was when the last `sys_getuserweight` of a task began. -/
structure State where
  cache : Cache
  current : TaskId → Option Addr
  pc : TaskId → Pc
  held : Nat → Option Addr
  sets : List (Uid × Nat)
  start : TaskId → List (Uid × Nat)

def State.setPc (s : State) (t : TaskId) (pc : Pc) : State :=
  { s with pc := Function.update s.pc t pc }

/-- `current->user` of a live task that is in none of these functions. -/
def State.me (s : State) (t : TaskId) : Option Addr :=
  match s.pc t with
  | .ready _ => s.current t
  | _ => none

/-- `uptr->uwrr_weight = weight`. -/
def setWeight (s : State) (a : Addr) (uid : Uid) (weight : Nat) : State :=
  { s with
    cache := s.cache.modUser a fun u => { u with uwrrWeight := weight }
    sets := (uid, weight) :: s.sets }

/-- `sys_getuserweight` up to `alloc_uid`. -/
def sysGetuserweight (s : State) (t : TaskId) (me : Addr) (uid : Int) : State :=
  let s := { s with start := Function.update s.start t s.sets }
  if uid = -1 then
    s.setPc t (.ready (.weight (s.cache.user me).uid (s.cache.user me).uwrrWeight))
  else if uid < 0 ∨ 65535 < uid then s.setPc t (.ready (.code (-EINVAL)))
  else s.setPc t (.searching uid.toNat .getuserweight)

/-- `sys_setuserweight` up to `alloc_uid`. -/
def sysSetuserweight (s : State) (t : TaskId) (me : Addr) (uid weight : Int) : State :=
  if weight ≤ 0 then s.setPc t (.ready (.code (-EINVAL)))
  else if uid < -1 ∨ 65535 < uid then s.setPc t (.ready (.code (-EINVAL)))
  else if (s.cache.user me).uid ≠ 0 then s.setPc t (.ready (.code (-EACCES)))
  else if uid = -1 then
    (setWeight s me (s.cache.user me).uid weight.toNat).setPc t (.ready (.code 0))
  else s.setPc t (.searching uid.toNat (.setuserweight weight.toNat))

/-- `alloc_uid` returned NULL. -/
def Caller.failed : Caller → Result
  | .keep => .nothing
  | .getuserweight | .setuserweight _ => .code (-EINVAL)

/-- The UWRR branch of `scheduler_tick` for the user of the task. -/
def tickUser (u : UserStruct) : UserStruct :=
  if dec32 u.uwrrTimeSlice = 0 then { u with uwrrTimeSlice := u32 (100 * u.uwrrWeight) }
  else { u with uwrrTimeSlice := dec32 u.uwrrTimeSlice }

/-! ## Steps -/

inductive Label where
  | getuserweight (t : TaskId) (uid : Int)
  | setuserweight (t : TaskId) (uid weight : Int)
  | allocUid (t : TaskId) (uid : Uid)
  | search (t : TaskId)
  /-- `none`: there is no memory for the struct or its keyring. -/
  | allocate (t : TaskId) (new : Option Addr)
  | insert (t : TaskId)
  /-- The caller of `alloc_uid` goes on; `i` numbers a reference it keeps. -/
  | use (t : TaskId) (i : Nat)
  | release (t : TaskId)
  | findUser (t : TaskId) (uid : Uid) (i : Nat)
  | freeUid (t : TaskId) (i : Nat)
  /-- `get_uid(current->user)`. -/
  | getUid (t : TaskId) (i : Nat)
  /-- A task begins, with the reference `i` for its `user`. -/
  | newTask (t : TaskId) (i : Nat)
  /-- A task is gone; `free_uid(p->user)` follows. -/
  | quit (t : TaskId) (i : Nat)
  | switchUid (t : TaskId) (i : Nat)
  | tick (t : TaskId)
deriving DecidableEq, Repr

/-- `alloc_uid`, first section. -/
def search (s : State) (t : TaskId) : Option State :=
  match s.pc t with
  | .searching uid caller =>
      match uidHashFind s.cache uid with
      | some (a, c) => some ({ s with cache := c }.setPc t (.got uid a caller))
      | none => some (s.setPc t (.missed uid caller))
  | _ => none

/-- `alloc_uid`, between the sections. -/
def allocate (s : State) (t : TaskId) (new : Option Addr) : Option State :=
  match s.pc t, new with
  | .missed _ caller, none => some (s.setPc t (.ready caller.failed))
  | .missed uid caller, some a =>
      if s.cache.allocated a then none
      else some ({ s with cache := cacheAlloc s.cache a uid }.setPc t (.allocated uid a caller))
  | _, _ => none

/-- `alloc_uid`, second section. -/
def insert (s : State) (t : TaskId) : Option State :=
  match s.pc t with
  | .allocated uid new caller =>
      match uidHashFind s.cache uid with
      | some (a, c) => some ({ s with cache := cacheFree c new }.setPc t (.got uid a caller))
      | none => some ({ s with cache := uidHashInsert s.cache new uid }.setPc t (.got uid new caller))
  | _ => none

/-- The caller of `alloc_uid` reads or writes the weight, or keeps the struct. -/
def use (s : State) (t : TaskId) (i : Nat) : Option State :=
  match s.pc t with
  | .got _ a .keep =>
      if s.held i = none then
        some ({ s with held := Function.update s.held i (some a) }.setPc t (.ready .nothing))
      else none
  | .got uid a .getuserweight =>
      some (s.setPc t (.releasing a (.weight uid (s.cache.user a).uwrrWeight)))
  | .got uid a (.setuserweight weight) =>
      some ((setWeight s a uid weight).setPc t (.releasing a (.code 0)))
  | _ => none

def release (s : State) (t : TaskId) : Option State :=
  match s.pc t with
  | .releasing a r => some ({ s with cache := freeUid s.cache a }.setPc t (.ready r))
  | _ => none

/-- `find_user`. -/
def findUser (s : State) (t : TaskId) (uid : Uid) (i : Nat) : Option State :=
  match s.me t, uidHashFind s.cache uid with
  | some _, some (a, c) =>
      if s.held i = none then some { s with cache := c, held := Function.update s.held i (some a) }
      else none
  | some _, none => some s
  | none, _ => none

def getUid (s : State) (t : TaskId) (i : Nat) : Option State :=
  match s.current t with
  | some a =>
      if s.held i = none then
        some { s with
          cache := s.cache.modUser a fun u => { u with count := u.count + 1 }
          held := Function.update s.held i (some a) }
      else none
  | none => none

def step (s : State) : Label → Option State
  | .getuserweight t uid => (s.me t).map fun me => sysGetuserweight s t me uid
  | .setuserweight t uid weight => (s.me t).map fun me => sysSetuserweight s t me uid weight
  | .allocUid t uid => (s.me t).map fun _ => s.setPc t (.searching uid .keep)
  | .search t => search s t
  | .allocate t new => allocate s t new
  | .insert t => insert s t
  | .use t i => use s t i
  | .release t => release s t
  | .findUser t uid i => findUser s t uid i
  | .freeUid t i =>
      match s.me t, s.held i with
      | some _, some a =>
          some { s with cache := freeUid s.cache a, held := Function.update s.held i none }
      | _, _ => none
  | .getUid t i => getUid s t i
  | .newTask t i =>
      match s.current t, s.held i, s.pc t with
      | none, some a, .ready _ =>
          some ({ s with
            current := Function.update s.current t (some a)
            held := Function.update s.held i none }.setPc t (.ready .nothing))
      | _, _, _ => none
  | .quit t i =>
      match s.me t with
      | some a =>
          if s.held i = none then
            some { s with
              current := Function.update s.current t none
              held := Function.update s.held i (some a) }
          else none
      | none => none
  | .switchUid t i =>
      match s.me t, s.held i with
      | some old, some new =>
          some ({ s with
            current := Function.update s.current t (some new)
            held := Function.update s.held i none }.setPc t (.releasing old .nothing))
      | _, _ => none
  | .tick t => (s.current t).map fun a => { s with cache := s.cache.modUser a tickUser }

/-- The address of `root_user`. -/
def rootUser : Addr := 0

/-- After `uid_cache_init`: the first task runs as root. -/
def State.init : State where
  cache :=
    { table := fun b => if b = uidhashfn 0 then [rootUser] else []
      user := fun _ => ⟨0, 1, UWRR_DEFAULT_WEIGHT, UWRR_START_SLICE⟩
      allocated := fun a => decide (a = rootUser) }
  current := fun t => if t = 0 then some rootUser else none
  pc := fun _ => .ready .nothing
  held := fun _ => none
  sets := []
  start := fun _ => []

def system : System State Label where
  init := fun s => s = State.init
  step := fun s a s' => step s a = some s'

end LinuxHacks.UserCache
