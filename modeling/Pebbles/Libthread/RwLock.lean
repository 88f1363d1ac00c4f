import Pebbles.Library.Runs
import Mathlib.Logic.Function.Basic
import Mathlib.Tactic.Common

/-! # Reader-writer locks of the thread library

The statements of `rwlock_lock`, `rwlock_unlock` and `rwlock_downgrade` of
`user/libthread/rwlock.c`, on one lock, by any number of threads and interleaved in any way. A call
of `sem_wait` or `sem_signal` is one step on the count of the semaphore, and so is every read and
every update of `readcnt` and `writecnt`.

The counters count threads of one task, which has a stack for each of them in a 32-bit address
space; they stay below the number of threads, and far from the bounds of an `int`. -/

namespace Pebbles

/-! ## The data -/

/-- The five semaphores. -/
inductive RwSem where
  /-- `rcnt_mutex`. -/
  | rcntMutex
  /-- `wcnt_mutex`. -/
  | wcntMutex
  /-- `gen_mutex`. -/
  | genMutex
  /-- `w`. -/
  | w
  /-- `r`. -/
  | r
  deriving DecidableEq

/-- What a thread does with the lock, from `rwlock_lock` to `rwlock_unlock`. -/
inductive Session where
  /-- `rwlock_lock(READ)`, `rwlock_unlock`. -/
  | read
  /-- `rwlock_lock(WRITE)`, `rwlock_unlock`; with `rwlock_downgrade` in between when `down`. -/
  | write (down : Bool)
  deriving DecidableEq

/-- **The statement a thread executes next.** A writer remembers whether it will downgrade. -/
inductive RwPc where
  /-- Outside, without the lock. -/
  | idle
  /-- `rwlock_lock(READ)`: `sem_wait(&rwlock->gen_mutex)`. -/
  | lockGen
  /-- `sem_wait(&rwlock->r)`. -/
  | lockR
  /-- `sem_wait(&rwlock->rcnt_mutex)`. -/
  | lockRcnt
  /-- `rwlock->readcnt++`. -/
  | incRead
  /-- `if (rwlock->readcnt == 1)`. -/
  | testFirst
  /-- `sem_wait(&rwlock->w)`. -/
  | lockW
  /-- `sem_signal(&rwlock->rcnt_mutex)`. -/
  | lockSignalRcnt
  /-- `sem_signal(&rwlock->r)`. -/
  | lockSignalR
  /-- `sem_signal(&rwlock->gen_mutex)`. -/
  | lockSignalGen
  /-- Outside, with the lock held for reading. -/
  | reading
  /-- `rwlock_lock(WRITE)`: `sem_wait(&rwlock->wcnt_mutex)`. -/
  | writeWcnt (down : Bool)
  /-- `rwlock->writecnt++`. -/
  | incWrite (down : Bool)
  /-- `sem_wait(&rwlock->r)`. -/
  | writeR (down : Bool)
  /-- `sem_wait(&rwlock->w)`. -/
  | writeW (down : Bool)
  /-- `sem_signal(&rwlock->wcnt_mutex)`. -/
  | writeSignalWcnt (down : Bool)
  /-- Outside, with the lock held for writing. -/
  | writing (down : Bool)
  /-- `rwlock_unlock`: `if (rwlock->readcnt > 0)`. The flag, which no statement reads, says that
  the lock was held for writing. -/
  | testRead (writer : Bool)
  /-- `sem_wait(&rwlock->rcnt_mutex)`. -/
  | exitRcnt
  /-- `rwlock->readcnt--`. -/
  | decRead
  /-- `if (rwlock->readcnt == 0)`. -/
  | testLastRead
  /-- `sem_signal(&rwlock->w)`. -/
  | exitSignalW
  /-- `sem_signal(&rwlock->rcnt_mutex)`. -/
  | exitSignalRcnt
  /-- `sem_wait(&rwlock->wcnt_mutex)`. -/
  | exitWcnt
  /-- `rwlock->writecnt--`. -/
  | decWrite
  /-- `if (rwlock->writecnt == 0)`. -/
  | testLastWrite
  /-- `sem_signal(&rwlock->r)`. -/
  | exitSignalR
  /-- `sem_signal(&rwlock->wcnt_mutex)`. -/
  | exitSignalWcnt
  /-- `rwlock_downgrade`: `sem_wait(&rwlock->wcnt_mutex)`. -/
  | downWcnt
  /-- `sem_wait(&rwlock->rcnt_mutex)`. -/
  | downRcnt
  /-- `rwlock->writecnt--`. -/
  | downDecWrite
  /-- `rwlock->readcnt++`. -/
  | downIncRead
  /-- `sem_signal(&rwlock->rcnt_mutex)`. -/
  | downSignalRcnt
  /-- `sem_signal(&rwlock->wcnt_mutex)`. -/
  | downSignalWcnt
  /-- `sem_signal(&rwlock->r)`. -/
  | downSignalR
  deriving DecidableEq

/-- **The state**: the lock and where the threads are. -/
structure RwLock (ι : Type*) where
  /-- What each thread executes next. -/
  pc : ι → RwPc
  /-- `rwlock->readcnt`. -/
  readcnt : Int
  /-- `rwlock->writecnt`. -/
  writecnt : Int
  /-- The counts of the semaphores. -/
  sem : RwSem → Int

/-- What happens next. -/
inductive RwMove (ι : Type*) where
  /-- The thread, without the lock, begins a session. -/
  | start (u : ι) (c : Session)
  /-- The thread executes its next statement, or calls the next function of its session. -/
  | go (u : ι)
  deriving DecidableEq

/-! ## The statements -/

namespace RwLock

variable {ι : Type*} [DecidableEq ι]

/-- Go on at `q`. -/
def goto (s : RwLock ι) (u : ι) (q : RwPc) : RwLock ι :=
  { s with pc := Function.update s.pc u q }

/-- Write the count of a semaphore. -/
def setSem (s : RwLock ι) (x : RwSem) (count : Int) : RwLock ι :=
  { s with sem := Function.update s.sem x count }

omit [DecidableEq ι] in
@[simp] theorem setSem_sem_self (s : RwLock ι) (x : RwSem) (count : Int) :
    (s.setSem x count).sem x = count := by
  simp [setSem]

/-- `sem_wait`, when the count is positive, and on at `q`. -/
def semWait (s : RwLock ι) (u : ι) (x : RwSem) (q : RwPc) : Option (RwLock ι) :=
  if s.sem x ≤ 0 then none else some ((s.setSem x (s.sem x - 1)).goto u q)

/-- `sem_signal`, and on at `q`. -/
def semSignal (s : RwLock ι) (u : ι) (x : RwSem) (q : RwPc) : Option (RwLock ι) :=
  some ((s.setSem x (s.sem x + 1)).goto u q)

/-- **The next statement** of the thread `u`, or the call of the next function. -/
def go (s : RwLock ι) (u : ι) : Option (RwLock ι) :=
  match s.pc u with
  | .idle => none
  | .lockGen => s.semWait u .genMutex .lockR
  | .lockR => s.semWait u .r .lockRcnt
  | .lockRcnt => s.semWait u .rcntMutex .incRead
  | .incRead => some ({ s with readcnt := s.readcnt + 1 }.goto u .testFirst)
  | .testFirst => some (s.goto u (if s.readcnt = 1 then .lockW else .lockSignalRcnt))
  | .lockW => s.semWait u .w .lockSignalRcnt
  | .lockSignalRcnt => s.semSignal u .rcntMutex .lockSignalR
  | .lockSignalR => s.semSignal u .r .lockSignalGen
  | .lockSignalGen => s.semSignal u .genMutex .reading
  | .reading => some (s.goto u (.testRead false))
  | .writeWcnt down => s.semWait u .wcntMutex (.incWrite down)
  | .incWrite down => some ({ s with writecnt := s.writecnt + 1 }.goto u (.writeR down))
  | .writeR down => s.semWait u .r (.writeW down)
  | .writeW down => s.semWait u .w (.writeSignalWcnt down)
  | .writeSignalWcnt down => s.semSignal u .wcntMutex (.writing down)
  | .writing down => some (s.goto u (if down then .downWcnt else .testRead true))
  | .testRead _ => some (s.goto u (if s.readcnt > 0 then .exitRcnt else .exitWcnt))
  | .exitRcnt => s.semWait u .rcntMutex .decRead
  | .decRead => some ({ s with readcnt := s.readcnt - 1 }.goto u .testLastRead)
  | .testLastRead => some (s.goto u (if s.readcnt = 0 then .exitSignalW else .exitSignalRcnt))
  | .exitSignalW => s.semSignal u .w .exitSignalRcnt
  | .exitSignalRcnt => s.semSignal u .rcntMutex .idle
  | .exitWcnt => s.semWait u .wcntMutex .decWrite
  | .decWrite => some ({ s with writecnt := s.writecnt - 1 }.goto u .testLastWrite)
  | .testLastWrite => some (s.goto u (if s.writecnt = 0 then .exitSignalR else .exitSignalWcnt))
  | .exitSignalR => s.semSignal u .r .exitSignalWcnt
  | .exitSignalWcnt => s.semSignal u .wcntMutex .idle
  | .downWcnt => s.semWait u .wcntMutex .downRcnt
  | .downRcnt => s.semWait u .rcntMutex .downDecWrite
  | .downDecWrite => some ({ s with writecnt := s.writecnt - 1 }.goto u .downIncRead)
  | .downIncRead => some ({ s with readcnt := s.readcnt + 1 }.goto u .downSignalRcnt)
  | .downSignalRcnt => s.semSignal u .rcntMutex .downSignalWcnt
  | .downSignalWcnt => s.semSignal u .wcntMutex .downSignalR
  | .downSignalR => s.semSignal u .r .reading

/-- The first statement of a session. -/
def entry : Session → RwPc
  | .read => .lockGen
  | .write down => .writeWcnt down

/-- **One step.** -/
def step (s : RwLock ι) : RwMove ι → Option (RwLock ι)
  | .start u c => if s.pc u = .idle then some (s.goto u (entry c)) else none
  | .go u => s.go u

/-- The steps as a relation. -/
def Step (s : RwLock ι) (m : RwMove ι) (s' : RwLock ι) : Prop := s.step m = some s'

/-- `rwlock_init`. -/
def init : RwLock ι where
  pc _ := .idle
  readcnt := 0
  writecnt := 0
  sem _ := 1

end RwLock

/-! ## Who holds the lock -/

/-- The thread holds the lock for writing: from the return of `rwlock_lock` to the start of
`rwlock_unlock`, or to the return of `rwlock_downgrade`. -/
def RwPc.HoldsWrite : RwPc → Prop
  | .writing _ | .downWcnt | .downRcnt | .downDecWrite | .downIncRead | .downSignalRcnt
  | .downSignalWcnt | .downSignalR => True
  | _ => False

/-- The thread holds the lock for reading: from the return of `rwlock_lock` or `rwlock_downgrade`
to the start of `rwlock_unlock`. -/
def RwPc.HoldsRead : RwPc → Prop
  | .reading => True
  | _ => False

end Pebbles
