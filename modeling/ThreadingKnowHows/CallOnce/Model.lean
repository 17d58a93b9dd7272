import ThreadingKnowHows.Framework.Once

/-!
# A routine that is called once

`init` and `worker` of `02_cpp11_threads/06_call_once/01_call_once.cpp`, with any
threads as workers. What is inserted into `std::cout` comes out piece by piece:
the line of a worker is five insertions, the fourth one of `g_data`. `init`
prints its line, one piece, before it sets `g_data`.
-/

namespace TKH.CallOnce

inductive Piece (T : Type)
  /-- `[init] performing one-time setup` -/
  | init
  /-- The insertion `k` of the line of `t`, of a text or of the number of `t`. -/
  | text (t : T) (k : ℕ)
  | gData (t : T) (data : String)

structure Data (T : Type) where
  gData : String
  out : List (Piece T)

inductive Pc
  /-- `std::call_once(g_init, init)` -/
  | callOnce
  | printInit
  | assign
  | initReturns
  | print (k : ℕ)
  | done
  deriving DecidableEq

variable {T : Type}

/-- `"[w" << id << "] saw g_data = \"" << g_data << "\"\n"` -/
def insertions : ℕ := 5

/-- Where a worker is when it has made `k` insertions. -/
def inserted (k : ℕ) : Pc := if k < insertions then .print k else .done

def insertion (t : T) (k : ℕ) (gData : String) : Piece T := if k = 3 then .gData t gData else .text t k

def code (t : T) : Pc → Once.Cmd (Data T) Pc Unit
  | .callOnce => .callOnce .printInit (inserted 0)
  | .printInit => .step fun _ d => some ({ d with out := d.out ++ [.init] }, .assign)
  | .assign => .step fun _ d => some ({ d with gData := "initialized" }, .initReturns)
  | .initReturns => .finish (inserted 0)
  | .print k => .step fun _ d => some ({ d with out := d.out ++ [insertion t k d.gData] }, inserted (k + 1))
  | .done => .halt

def callOnce (T : Type) : Once.Program T (Data T) Pc Unit where
  code := code
  entry _ := .callOnce
  init := { gData := "", out := [] }

/-! ## The flag and the data -/

def Pc.phase : Pc → Once.Phase
  | callOnce => .before
  | printInit | assign | initReturns => .inside
  | print _ | done => .after

theorem phase_inserted (k : ℕ) : (inserted k).phase = .after := by
  unfold inserted
  split <;> rfl

/-- A piece that a worker prints when it has seen what `init` makes of `g_data`. -/
def saysInitialized (x : T × ℕ) : Piece T := insertion x.1 x.2 "initialized"

/-- What `init` makes of the data. -/
def spec (T : Type) : Once.Spec (Data T) Pc where
  fresh d := d.out = []
  inside
    | .printInit, d => d.out = []
    | .assign, d => d.out = [.init]
    | _, d => d.gData = "initialized" ∧ d.out = [.init]
  done d := d.gData = "initialized" ∧ ∃ l : List (T × ℕ), d.out = .init :: l.map saysInitialized

theorem annotated : Once.Annotation (callOnce T) (fun _ => Pc.phase) (spec T) where
  entry _ := rfl
  code t l := by
    cases l with
    | callOnce => exact ⟨nofun, rfl, phase_inserted 0⟩
    | initReturns => exact ⟨rfl, phase_inserted 0⟩
    | done => exact nofun
    | printInit | assign =>
      intro c d d' k h
      cases h
      rfl
    | print i =>
      intro c d d' k h
      cases h
      exact phase_inserted (i + 1)
  init := rfl
  asserts t l := by
    cases l with
    | callOnce => exact fun d hd => hd
    | initReturns => exact fun d hd => ⟨hd.1, [], hd.2⟩
    | done => exact trivial
    | printInit =>
      intro c d d' k h
      cases h
      exact fun hd : d.out = [] => show d.out ++ _ = _ by rw [hd]; rfl
    | assign =>
      intro c d d' k h
      cases h
      exact fun hd => ⟨rfl, hd⟩
    | print i =>
      intro c d d' k h
      cases h
      rintro ⟨hg, l, hout⟩
      refine ⟨hg, l ++ [(t, i)], ?_⟩
      rw [List.map_append, ← List.cons_append, ← hout]
      change d.out ++ [insertion t i d.gData] = _
      rw [hg]
      rfl

end TKH.CallOnce
