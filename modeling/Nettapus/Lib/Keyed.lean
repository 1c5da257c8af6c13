import Mathlib.Algebra.GroupWithZero.Nat
import Mathlib.Data.List.Basic
import Mathlib.Tactic.Common

/-!
# Calls with keys

A sequence of calls, each with a key, is the map that `latest` reads from it. A list of entries is searched from the
front with `find`. `Settled calls k` says that no key is new after the first call with the key `k`, and `NoReturn`
that each call which repeats a key finds it settled.

* `latest_append`: a call changes the map at its own key;
* `noReturn_append`: `NoReturn` call by call;
* `settled_append_new` and `settled_append_old`: which keys are settled after one more call.
-/

namespace Keyed

variable {κ ν : Type*} {key : ν → κ} {calls L : List ν} {c d : ν} {k : κ}

section Map

variable [DecidableEq κ]

/-- The first entry with the key. -/
def find (key : ν → κ) (L : List ν) (k : κ) : Option ν := L.find? fun c => key c = k

/-- The last call with the key. -/
def latest (key : ν → κ) (calls : List ν) (k : κ) : Option ν := find key calls.reverse k

@[simp] theorem find_nil : find key [] k = none := by simp [find]

@[simp] theorem find_cons : find key (c :: L) k = if key c = k then some c else find key L k := by
  unfold find
  by_cases h : key c = k <;> simp [h]

theorem find_append_of_notMem {M : List ν} (h : k ∉ L.map key) : find key (L ++ M) k = find key M k := by
  induction L with
  | nil => simp
  | cons c L ih =>
    simp only [List.map_cons, List.mem_cons, not_or] at h
    simp [Ne.symm h.1, ih h.2]

theorem find_append_of_mem {M : List ν} (h : k ∈ L.map key) : find key (L ++ M) k = find key L k := by
  induction L with
  | nil => simp at h
  | cons c L ih =>
    by_cases hc : key c = k
    · simp [hc]
    · have hk : k ∈ L.map key := by simpa [Ne.symm hc] using h
      simp [hc, ih hk]

theorem find_eq_none : find key L k = none ↔ k ∉ L.map key := by
  simp [find]

@[simp] theorem latest_nil : latest key [] k = none := by simp [latest]

/-- **A call changes the map at its own key.** -/
theorem latest_append : latest key (calls ++ [c]) k = if key c = k then some c else latest key calls k := by
  simp [latest]

theorem latest_eq_none : latest key calls k = none ↔ k ∉ calls.map key := by
  rw [latest, find_eq_none]
  simp

end Map

/-! ## Keys that come again -/

/-- After the first call with the key `k` there is no call with a new key. -/
def Settled (key : ν → κ) (calls : List ν) (k : κ) : Prop :=
  ∀ a d b, calls = a ++ d :: b → k ∈ a.map key → key d ∈ a.map key

/-- No call repeats a key after a new one came behind it. -/
def NoReturn (key : ν → κ) (calls : List ν) : Prop :=
  ∀ a d b c e, calls = a ++ d :: (b ++ c :: e) → key c ∈ a.map key → key d ∈ a.map key

/-- A split of a list with one more element. -/
theorem append_singleton_split {a b : List ν} :
    calls ++ [c] = a ++ d :: b ↔ (a = calls ∧ d = c ∧ b = []) ∨ ∃ b', b = b' ++ [c] ∧ calls = a ++ d :: b' := by
  rcases List.eq_nil_or_concat' b with rfl | ⟨b', x, rfl⟩
  · rw [List.append_singleton_inj]
    constructor
    · rintro ⟨rfl, rfl⟩
      simp
    · rintro (⟨rfl, rfl, -⟩ | ⟨b', hb, -⟩)
      · simp
      · simp at hb
  · have hassoc : a ++ d :: (b' ++ [x]) = (a ++ d :: b') ++ [x] := by simp
    rw [hassoc, List.append_singleton_inj]
    constructor
    · rintro ⟨hcalls, rfl⟩
      exact Or.inr ⟨b', rfl, hcalls⟩
    · rintro (⟨-, -, hb⟩ | ⟨b'', hb, hcalls⟩)
      · simp at hb
      · obtain ⟨rfl, rfl⟩ := List.append_singleton_inj.1 hb
        exact ⟨hcalls, rfl⟩

theorem settled_append : Settled key (calls ++ [c]) k ↔
    Settled key calls k ∧ (k ∈ calls.map key → key c ∈ calls.map key) := by
  constructor
  · intro h
    refine ⟨fun a d b hab => h a d (b ++ [c]) ?_, h calls c [] rfl⟩
    simp [hab]
  · rintro ⟨h1, h2⟩ a d b hab
    rcases append_singleton_split.1 hab with ⟨rfl, rfl, -⟩ | ⟨b', -, hcalls⟩
    · exact h2
    · exact h1 a d b' hcalls

/-- A key that never came is settled. -/
theorem settled_of_notMem (h : k ∉ calls.map key) : Settled key calls k := by
  rintro a d b rfl hk
  simp_all

/-- **After a call with a new key**, its key is settled and of the others those that did not come. -/
theorem settled_append_new (hc : key c ∉ calls.map key) :
    Settled key (calls ++ [c]) k ↔ k ∉ calls.map key := by
  rw [settled_append]
  constructor
  · intro h hk
    exact hc (h.2 hk)
  · intro hk
    exact ⟨settled_of_notMem hk, fun h => absurd h hk⟩

/-- **A call with an old key** settles nothing and unsettles nothing. -/
theorem settled_append_old (hc : key c ∈ calls.map key) : Settled key (calls ++ [c]) k ↔ Settled key calls k := by
  rw [settled_append]
  simp [hc]

@[simp] theorem noReturn_nil : NoReturn key [] := by
  intro a d b c e h
  simp at h

/-- **Call by call**: each one finds its key settled. -/
theorem noReturn_append : NoReturn key (calls ++ [c]) ↔ NoReturn key calls ∧ Settled key calls (key c) := by
  constructor
  · intro h
    refine ⟨fun a d b x e hx => h a d b x (e ++ [c]) (by simp [hx]), fun a d b hab => ?_⟩
    exact h a d b c [] (by simp [hab])
  · rintro ⟨h1, h2⟩ a d b x e hx hmem
    have hassoc : calls ++ [c] = (a ++ d :: b) ++ x :: e := by simp [hx]
    rcases append_singleton_split.1 hassoc with ⟨hcalls, rfl, -⟩ | ⟨e', -, hcalls⟩
    · exact h2 a d b hcalls.symm hmem
    · exact h1 a d b x e' (by simp [hcalls]) hmem

end Keyed
