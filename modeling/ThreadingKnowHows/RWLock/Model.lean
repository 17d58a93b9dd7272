import Mathlib.Data.Nat.Notation
import ThreadingKnowHows.Framework.ReadWrite

/-!
# Readers and writers

`reader`, `writer` and `main` of `01_pthreads/04_rwlock/01_rwlock_basic.c`, with
any readers `R` and writers `W` that go round `reads` and `writes` times. What
they print is logged. `shared` is an `int`; it counts the writes, and stays in its
range as long as all writers together make fewer than `2 ^ 31` of them
(`output_correct`).
-/

namespace TKH.RWLock

inductive Line
  /-- `read shared=v` -/
  | read (v : ℕ)
  /-- `wrote shared=v` -/
  | wrote (v : ℕ)
  deriving DecidableEq

/-- Where a thread is in its round `i`. -/
inductive Pc
  | rdlock (i : ℕ)
  | read (i : ℕ)
  | rdunlock (i : ℕ)
  | wrlock (i : ℕ)
  | increment (i : ℕ)
  | print (i : ℕ)
  | wrunlock (i : ℕ)
  | done
  deriving DecidableEq

/-- `for (int i = 0; i < reads; ++i)` -/
def readerLoop (reads i : ℕ) : Pc := if i < reads then .rdlock i else .done

def writerLoop (writes i : ℕ) : Pc := if i < writes then .wrlock i else .done

variable (reads writes : ℕ)

def code : Pc → ReadWrite.Cmd ℕ Pc Line
  | .rdlock i => .lockShared (.read i)
  | .read i => .read fun shared => (.rdunlock i, some (.read shared))
  | .rdunlock i => .unlockShared (readerLoop reads (i + 1))
  | .wrlock i => .lock (.increment i)
  | .increment i => .write fun shared => (shared + 1, .print i, none)
  | .print i => .read fun shared => (.wrunlock i, some (.wrote shared))
  | .wrunlock i => .unlock (writerLoop writes (i + 1))
  | .done => .halt

def rwlockBasic (R W : Type) : ReadWrite.Program (R ⊕ W) ℕ Pc Line where
  code _ := code reads writes
  entry
    | .inl _ => readerLoop reads 0
    | .inr _ => writerLoop writes 0
  init := 0

end TKH.RWLock
