import Bes.Http.RemoteHeaders

/-! The size in the control file of the HTTP cache, and the resources that are there. -/
namespace Bes.Http.CacheSize
open Dispatch RemoteHeaders Lib.Run Finset Function

structure Accounts where
  files : Finset Str
  size : Str → Nat
  recorded : Nat

def Accounts.total (accounts : Accounts) : Nat := ∑ name ∈ accounts.files, accounts.size name

structure Download extends Retrieval where
  length : Nat

/-- `retrieveResource` in a cache that is not purged. `update_cache_info` adds the size of the file, whether
or not the file was there before. A retrieval that throws has no result. -/
def step (cache : HttpCache) (accounts : Accounts) (download : Download) : Option Accounts :=
  match course cache accounts.files download.toRetrieval with
  | .initialized | .loaded _ => some accounts
  | .stored name => some
      ⟨insert name accounts.files, update accounts.size name download.length,
        (accounts.recorded + download.length) % 2 ^ 64⟩
  | _ => none

def Accounts.Match (accounts : Accounts) : Prop := accounts.recorded = accounts.total

/-- A resource that is stored was not there or was empty, and the sizes do not overflow. -/
def Adds (cache : HttpCache) (accounts : Accounts) (download : Download) : Prop :=
  match course cache accounts.files download.toRetrieval with
  | .stored name => (name ∈ accounts.files → accounts.size name = 0) ∧
      accounts.total + download.length < 2 ^ 64
  | _ => True

instance : Decidable (Adds cache accounts download) := by
  unfold Adds
  split <;> infer_instance

theorem total_insert (accounts : Accounts) (name : Str) (length recorded : Nat) :
    (Accounts.mk (insert name accounts.files) (update accounts.size name length)
        recorded).total + (if name ∈ accounts.files then accounts.size name else 0) =
      accounts.total + length := by
  have hnew := add_sum_erase _ (update accounts.size name length)
    (mem_insert_self name accounts.files)
  have hrest : ∑ other ∈ accounts.files.erase name, update accounts.size name length other =
      ∑ other ∈ accounts.files.erase name, accounts.size other :=
    sum_congr rfl fun other h => update_of_ne (ne_of_mem_erase h) ..
  rw [update_self, erase_insert_eq_erase, hrest] at hnew
  unfold Accounts.total
  dsimp only
  split
  · next hmem =>
    have hold := add_sum_erase _ accounts.size hmem
    omega
  · next hmem =>
    rw [erase_eq_of_notMem hmem] at hnew
    omega

structure Accounts.Sound (accounts : Accounts) : Prop where
  matches_total : accounts.Match
  recorded_lt : accounts.recorded < 2 ^ 64

theorem match_step_iff (hsou : accounts.Sound) (hstep : step cache accounts download = some after) :
    after.Match ↔ Adds cache accounts download := by
  have hmatch := hsou.matches_total
  unfold step at hstep
  unfold Adds
  split at hstep
  · next hcou =>
    cases hstep
    simpa [hcou] using hmatch
  · next headers hcou =>
    cases hstep
    simpa [hcou] using hmatch
  · next name hcou =>
    cases hstep
    rw [hcou]
    have htot := total_insert accounts name download.length
      ((accounts.recorded + download.length) % 2 ^ 64)
    have hlt := hsou.recorded_lt
    unfold Accounts.Match at hmatch ⊢
    dsimp only at htot ⊢
    -- What was there before is at most the total, so the sum cannot wrap around to hide it.
    split at htot
    · next hmem =>
      have hle : accounts.size name ≤ accounts.total := single_le_sum_of_canonicallyOrdered hmem
      simp only [hmem, true_imp_iff]
      omega
    · next hmem =>
      simp only [hmem, false_imp_iff, true_and]
      omega
  · cases hstep

theorem recorded_lt_of_step (hlt : accounts.recorded < 2 ^ 64)
    (hstep : step cache accounts download = some after) : after.recorded < 2 ^ 64 := by
  unfold step at hstep
  split at hstep <;> cases hstep
  · exact hlt
  · exact hlt
  · exact Nat.mod_lt _ (by decide)

theorem throughout_match_iff (cache : HttpCache) (hsou : accounts.Sound) (downloads : List Download) :
    Throughout (step cache) Accounts.Match accounts downloads ↔
      Guarded (step cache) (Adds cache) accounts downloads := by
  apply throughout_iff_guarded Accounts.Sound _ _ _ downloads hsou
  · exact fun _ h => h.matches_total
  · exact fun _ _ _ hbefore hadd hstep =>
      ⟨(match_step_iff hbefore hstep).mpr hadd, recorded_lt_of_step hbefore.recorded_lt hstep⟩
  · exact fun _ _ _ hbefore hstep hafter => (match_step_iff hbefore hstep).mp hafter

def empty : Accounts := ⟨∅, fun _ => 0, 0⟩

theorem empty_sound : empty.Sound := ⟨rfl, by decide⟩

/-- From an empty cache on, the recorded size is always that of the resources exactly if no retrieval
replaces a resource that is not empty. -/
theorem recorded_eq_total_iff (cache : HttpCache) (downloads : List Download) :
    Throughout (step cache) Accounts.Match empty downloads ↔
      Guarded (step cache) (Adds cache) empty downloads :=
  throughout_match_iff cache empty_sound downloads

def refreshed : List Download :=
  [⟨largeRetrieval, 5⟩, ⟨{ largeRetrieval with age := 3601 }, 5⟩]

/-- The five bytes of the expired resource are counted twice. -/
theorem refreshed_not_match : ¬ Throughout (step smallCache) Accounts.Match empty refreshed := by
  rw [throughout_match_iff smallCache empty_sound]
  decide +kernel

end Bes.Http.CacheSize
