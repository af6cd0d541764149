import Mathlib

/-! Keys that are filed under a hash value, in buckets with a limit. A key is filed once, at the end
of its bucket, and never moved. -/
namespace Bes.Lib.Bucket
open List

variable {κ β : Type*} [DecidableEq β] (hash : κ → β)

def bucket (known : List κ) (value : β) : List κ := known.filter fun key => decide (hash key = value)

variable {hash} {keys : List κ} {key : κ} {value : β}

theorem mem_bucket : key ∈ bucket hash known value ↔ key ∈ known ∧ hash key = value := by
  rw [bucket, mem_filter, decide_eq_true_eq]

theorem bucket_append_self (known : List κ) (key : κ) :
    bucket hash (known ++ [key]) (hash key) = bucket hash known (hash key) ++ [key] := by
  rw [bucket, bucket, filter_append, filter_singleton, decide_eq_true rfl, cond_true]

theorem bucket_append_of_ne (known : List κ) (hne : hash key ≠ value) :
    bucket hash (known ++ [key]) value = bucket hash known value := by
  rw [bucket, bucket, filter_append, filter_singleton, decide_eq_false hne, cond_false, append_nil]

theorem bucket_mono (hash : κ → β) (hlat : known <+: later) (value : β) :
    bucket hash known value <+: bucket hash later value := hlat.filter _

variable [DecidableEq κ] (hash) (limit : Nat) (accepted : κ → Bool)

def file (known : List κ) (key : κ) : List κ :=
  if key ∈ known then known
  else if (bucket hash known (hash key)).length < limit ∧ accepted key = true then known ++ [key]
  else known

def fileAll (keys : List κ) : List κ := keys.foldl (file hash limit accepted) []

variable {hash limit accepted}

theorem file_of_mem (hmem : key ∈ known) : file hash limit accepted known key = known := if_pos hmem

theorem file_of_room (hmem : key ∉ known) (hrom : (bucket hash known (hash key)).length < limit)
    (hacc : accepted key = true) : file hash limit accepted known key = known ++ [key] := by
  rw [file, if_neg hmem, if_pos ⟨hrom, hacc⟩]

theorem file_of_refused
    (href : ¬ ((bucket hash known (hash key)).length < limit ∧ accepted key = true)) :
    file hash limit accepted known key = known := by
  unfold file
  rw [if_neg href, ite_self]

variable (hash limit accepted) in
theorem file_cases (known : List κ) (key : κ) : file hash limit accepted known key = known ∨
      (key ∉ known ∧ (bucket hash known (hash key)).length < limit ∧ accepted key = true ∧
        file hash limit accepted known key = known ++ [key]) := by
  by_cases hmem : key ∈ known
  · exact .inl (file_of_mem hmem)
  · by_cases hrom : (bucket hash known (hash key)).length < limit ∧ accepted key = true
    · exact .inr ⟨hmem, hrom.1, hrom.2, file_of_room hmem hrom.1 hrom.2⟩
    · exact .inl (file_of_refused hrom)

theorem prefix_file (known : List κ) (key : κ) : known <+: file hash limit accepted known key := by
  rcases file_cases hash limit accepted known key with hsam | ⟨-, -, -, happ⟩
  · exact ⟨[], (append_nil known).trans hsam.symm⟩
  · rw [happ]
    exact prefix_append known [key]

theorem fileAll_append (keys more : List κ) : fileAll hash limit accepted (keys ++ more)
      = more.foldl (file hash limit accepted) (fileAll hash limit accepted keys) :=
  foldl_append

theorem fileAll_concat (keys : List κ) (key : κ) : fileAll hash limit accepted (keys ++ [key])
      = file hash limit accepted (fileAll hash limit accepted keys) key :=
  fileAll_append keys [key]

variable (hash limit accepted) in
theorem fileAll_mono (keys more : List κ) :
    fileAll hash limit accepted keys <+: fileAll hash limit accepted (keys ++ more) := by
  induction more generalizing keys with
  | nil => exact ⟨[], by simp⟩
  | cons key more ih =>
    have hstp : fileAll hash limit accepted keys <+: fileAll hash limit accepted (keys ++ [key]) := by
      rw [fileAll_concat]
      exact prefix_file _ key
    have hrst := hstp.trans (ih (keys ++ [key]))
    rwa [append_assoc, singleton_append] at hrst

theorem fileAll_induction {motive : List κ → List κ → Prop} (hnil : motive [] [])
    (hfil : ∀ keys key known, motive keys known → known = fileAll hash limit accepted keys →
      motive (keys ++ [key]) (file hash limit accepted known key)) (keys : List κ) :
    motive keys (fileAll hash limit accepted keys) := by
  induction keys using reverseRecOn with
  | nil => exact hnil
  | append_singleton keys key ih =>
    rw [fileAll_concat]
    exact hfil keys key _ ih rfl

theorem nodup_fileAll (keys : List κ) : (fileAll hash limit accepted keys).Nodup := by
  refine fileAll_induction (motive := fun _ known => known.Nodup) nodup_nil ?_ keys
  intro keys key known hnod _
  rcases file_cases hash limit accepted known key with hsam | ⟨hmem, -, -, happ⟩
  · rwa [hsam]
  · rw [happ]
    exact nodup_append.mpr ⟨hnod, nodup_singleton key, fun other hoth single hsin =>
      fun heq => hmem (mem_singleton.mp hsin ▸ heq ▸ hoth)⟩

theorem mem_keys_of_mem_fileAll (hmem : key ∈ fileAll hash limit accepted keys) : key ∈ keys := by
  revert key
  refine fileAll_induction (motive := fun keys known => ∀ {key}, key ∈ known → key ∈ keys)
    (fun hmem => hmem) ?_ keys
  intro keys last known hsub _ key hmem
  rcases file_cases hash limit accepted known last with hsam | ⟨-, -, -, happ⟩
  · rw [hsam] at hmem
    exact mem_append_left [last] (hsub hmem)
  · rw [happ, mem_append] at hmem
    exact mem_append.mpr (hmem.imp_left hsub)

theorem accepted_of_mem_fileAll (hmem : key ∈ fileAll hash limit accepted keys) :
    accepted key = true := by
  revert key
  refine fileAll_induction (motive := fun _ known => ∀ {key}, key ∈ known → accepted key = true)
    (fun hmem => absurd hmem not_mem_nil) ?_ keys
  intro keys last known hkno _ key hmem
  rcases file_cases hash limit accepted known last with hsam | ⟨-, -, hacc, happ⟩
  · rw [hsam] at hmem
    exact hkno hmem
  · rw [happ, mem_append, mem_singleton] at hmem
    rcases hmem with hmem | rfl
    · exact hkno hmem
    · exact hacc

variable (hash limit accepted) in
theorem length_bucket_le (keys : List κ) (value : β) :
    (bucket hash (fileAll hash limit accepted keys) value).length ≤ limit := by
  refine fileAll_induction (motive := fun _ known => (bucket hash known value).length ≤ limit)
    (Nat.zero_le limit) ?_ keys
  intro keys key known hlen _
  rcases file_cases hash limit accepted known key with hsam | ⟨-, hrom, -, happ⟩
  · rwa [hsam]
  · rw [happ]
    by_cases hval : hash key = value
    · subst hval
      rw [bucket_append_self, length_append, length_singleton]
      exact hrom
    · rwa [bucket_append_of_ne known hval]

theorem refused_of_not_mem (hkey : key ∈ keys) (hmem : key ∉ fileAll hash limit accepted keys) :
    ¬ ((bucket hash (fileAll hash limit accepted keys) (hash key)).length < limit ∧
      accepted key = true) := by
  obtain ⟨before, after, rfl⟩ := append_of_mem hkey
  rintro ⟨hrom, hacc⟩
  rw [← singleton_append, ← append_assoc] at hrom hmem
  have hnot : key ∉ fileAll hash limit accepted (before ++ [key]) :=
    fun hfil => hmem ((fileAll_mono hash limit accepted (before ++ [key]) after).subset hfil)
  have hbef : key ∉ fileAll hash limit accepted before :=
    fun hfil => hnot ((fileAll_mono hash limit accepted before [key]).subset hfil)
  have hear := (bucket_mono hash ((fileAll_mono hash limit accepted before [key]).trans
    (fileAll_mono hash limit accepted (before ++ [key]) after)) (hash key)).length_le
  have hfile := file_of_room hbef (lt_of_le_of_lt hear hrom) hacc
  rw [fileAll_concat, hfile] at hnot
  exact hnot (mem_append_right _ (mem_singleton_self key))

theorem idxOf_bucket_mono (hash : κ → β) (hlat : known <+: later) (hmem : key ∈ known) :
    (bucket hash later (hash key)).idxOf key = (bucket hash known (hash key)).idxOf key :=
  ((bucket_mono hash hlat (hash key)).idxOf_eq_of_mem (mem_bucket.mpr ⟨hmem, rfl⟩)).symm

end Bes.Lib.Bucket
