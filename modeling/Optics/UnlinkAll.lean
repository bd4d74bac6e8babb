import Optics.RestPolls
import Optics.ShmFiles

/-! # Unlinking all regions

`optics_unlink_all` unlinks the regions that `shm_foreach` finds, but its callback returns 1, which
is `shm_break`: a call unlinks the first region in the directory, if that succeeds, and returns true
however many are left.

* `opticsUnlinkAll_eq`: what a call does to a directory as it is listed;
* `unlink_all`: what calls one after the other do, each with a listing of its own. -/

namespace Optics.UnlinkAll

open Optics.Base Optics.Regions Optics.ShmFiles Optics.RestPolls

/-! ### The functions -/

/-- `region_unlink`. -/
def regionUnlink (sys : Sys) (name : CStr) (k : Kernel) : Bool × Kernel :=
  match regionShmName name with
  | none => (false, k)
  | some name => (sys.ok, shmUnlink sys name k)

/-- `optics_unlink`. -/
def opticsUnlink (sys : Sys) (name : CStr) (k : Kernel) : Bool × Kernel := regionUnlink sys name k

/-- The name behind the prefix, as `shm_foreach` passes it on. -/
def behindPrefix (name : CStr) : CStr :=
  ⟨name.val.drop shmPrefix.length, fun h => name.property (List.mem_of_mem_drop h)⟩

/-- `optics_unlink_all_cb`. -/
def opticsUnlinkAllCb (sys : Sys) (k : Kernel) (entry : Dirent) : Kernel × ShmRet :=
  ((opticsUnlink sys (behindPrefix entry.name) k).2, 1)

/-- `optics_unlink_all`, in a directory that can be opened. -/
def opticsUnlinkAll (sys : Sys) (entries : List Dirent) (k : Kernel) (junk : ShmRet) :
    Bool × Kernel :=
  let (k, ret) := shmForeach (opticsUnlinkAllCb sys) entries k junk
  (decide (ret ≥ 0), k)

/-! ### One call -/

/-- The names of the regions among the entries, in their order. -/
def regionsOf (entries : List Dirent) : List CStr :=
  (entries.filter Dirent.isOptics).map Dirent.name

/-- What a call does to the first region: a name that leaves no room for its end is not unlinked. -/
def unlinkFirst (sys : Sys) (name : CStr) (k : Kernel) : Kernel :=
  if name.val.length < nameMax then shmUnlink sys name k else k

theorem isOptics_name {entry : Dirent} (h : entry.isOptics = true) :
    shmPrefix ++ (behindPrefix entry.name).val = entry.name.val := by
  simp only [Dirent.isOptics, Bool.and_eq_true, decide_eq_true_eq] at h
  conv_rhs => rw [← List.take_append_drop shmPrefix.length entry.name.val, h.2]
  rfl

theorem opticsUnlink_behind (sys : Sys) {entry : Dirent} (h : entry.isOptics = true) (k : Kernel) :
    (opticsUnlink sys (behindPrefix entry.name) k).2 = unlinkFirst sys entry.name k := by
  have hname := isOptics_name h
  have hlen := congrArg List.length hname
  rw [List.length_append] at hlen
  unfold opticsUnlink regionUnlink regionShmName unlinkFirst
  rw [hlen]
  split_ifs with hfit
  · have heq : (⟨shmPrefix ++ (behindPrefix entry.name).val, hname ▸ entry.name.property⟩ : CStr) =
        entry.name := Subtype.ext hname
    dsimp only
    rw [heq]
  · rfl

/-- **A call of `optics_unlink_all`** is one of `optics_unlink` on the first region. -/
theorem opticsUnlinkAll_eq (sys : Sys) (k : Kernel) (junk : ShmRet) : ∀ entries : List Dirent,
    opticsUnlinkAll sys entries k junk =
      match regionsOf entries with
      | [] => (decide (junk ≥ 0), k)
      | name :: _ => (true, unlinkFirst sys name k)
  | [] => rfl
  | entry :: entries => by
    by_cases h : entry.isOptics = true
    · have hregions : regionsOf (entry :: entries) = entry.name :: regionsOf entries := by
        rw [regionsOf, List.filter_cons_of_pos h, List.map_cons, regionsOf]
      have hone : (1 : ShmRet) ≠ shmOk := by decide
      unfold opticsUnlinkAll
      rw [hregions, shmForeach, if_pos h, opticsUnlinkAllCb]
      dsimp only
      rw [if_pos hone, opticsUnlink_behind sys h]
      rfl
    · have hregions : regionsOf (entry :: entries) = regionsOf entries := by
        rw [regionsOf, List.filter_cons_of_neg h, regionsOf]
      have htail := opticsUnlinkAll_eq sys k junk entries
      unfold opticsUnlinkAll at htail ⊢
      rw [hregions, shmForeach, if_neg h]
      exact htail

/-! ### Calls one after the other -/

/-- The directory as a call finds it: each name once, in any order. -/
structure Listing (regular : CStr → Bool) (k : Kernel) (entries : List Dirent) : Prop where
  once : (entries.map Dirent.name).Nodup
  names : ∀ name, name ∈ entries.map Dirent.name ↔ (k.dir name).isSome
  regular : ∀ entry ∈ entries, entry.regular = regular entry.name

/-- Calls of `optics_unlink_all`, and how their `shm_unlink` ends. -/
inductive Calls (regular : CStr → Bool) : List Sys → Kernel → Kernel → Prop
  | none (k : Kernel) : Calls regular [] k k
  | call {sys : Sys} {calls : List Sys} {k k' : Kernel} {entries : List Dirent} (junk : ShmRet)
      (hlist : Listing regular k entries)
      (hs : Calls regular calls (opticsUnlinkAll sys entries k junk).2 k') :
      Calls regular (sys :: calls) k k'

variable {regular : CStr → Bool} {k k' : Kernel} {entries entries' : List Dirent}

theorem Listing.nodup (h : Listing regular k entries) : (regionsOf entries).Nodup :=
  h.once.sublist (List.filter_sublist.map Dirent.name)

theorem Listing.mem_regionsOf (h : Listing regular k entries) (name : CStr) :
    name ∈ regionsOf entries ↔ (k.dir name).isSome ∧ regular name = true ∧
      name.val.take shmPrefix.length = shmPrefix := by
  rw [← h.names, regionsOf, List.mem_map, List.mem_map]
  constructor
  · rintro ⟨entry, hentry, rfl⟩
    obtain ⟨hmem, hoptics⟩ := List.mem_filter.mp hentry
    simp only [Dirent.isOptics, Bool.and_eq_true, decide_eq_true_eq] at hoptics
    exact ⟨⟨entry, hmem, rfl⟩, h.regular entry hmem ▸ hoptics.1, hoptics.2⟩
  · rintro ⟨⟨entry, hmem, rfl⟩, hregular, hprefix⟩
    refine ⟨entry, List.mem_filter.mpr ⟨hmem, ?_⟩, rfl⟩
    simp only [Dirent.isOptics, Bool.and_eq_true, decide_eq_true_eq]
    exact ⟨(h.regular entry hmem).trans hregular, hprefix⟩

theorem Listing.perm (h : Listing regular k entries) (h' : Listing regular k entries') :
    (regionsOf entries').Perm (regionsOf entries) :=
  (List.perm_ext_iff_of_nodup h'.nodup h.nodup).mpr fun name => by
    rw [h.mem_regionsOf, h'.mem_regionsOf]

theorem Listing.perm_unlink {sys : Sys} {name : CStr} {rest : List CStr}
    (h : Listing regular k entries) (hfirst : regionsOf entries = name :: rest)
    (hok : sys.ok = true) (h' : Listing regular (shmUnlink sys name k) entries') :
    (regionsOf entries').Perm rest := by
  have hnodup := h.nodup
  rw [hfirst, List.nodup_cons] at hnodup
  refine (List.perm_ext_iff_of_nodup h'.nodup hnodup.2).mpr fun other => ?_
  have hother := h.mem_regionsOf other
  rw [hfirst, List.mem_cons] at hother
  rw [h'.mem_regionsOf, shmUnlink, if_pos hok]
  by_cases heq : other = name
  · subst heq
    simp [hnodup.1]
  · dsimp only
    rw [Function.update_of_ne heq, ← hother]
    simp [heq]

/-- A call unlinks one region at most. -/
theorem Listing.call {sys : Sys} {junk : ShmRet} (h : Listing regular k entries)
    (h' : Listing regular (opticsUnlinkAll sys entries k junk).2 entries') :
    (regionsOf entries').Perm (regionsOf entries) ∨
      (regionsOf entries').Perm (regionsOf entries).tail := by
  rw [opticsUnlinkAll_eq] at h'
  rcases hfirst : regionsOf entries with _ | ⟨name, rest⟩
  · rw [hfirst] at h'
    exact .inl (hfirst ▸ h.perm h')
  · rw [hfirst] at h'
    dsimp only at h'
    unfold unlinkFirst at h'
    split_ifs at h'
    · by_cases hok : sys.ok = true
      · exact .inr (h.perm_unlink hfirst hok h')
      · rw [shmUnlink, if_neg hok] at h'
        exact .inl (hfirst ▸ h.perm h')
    · exact .inl (hfirst ▸ h.perm h')

theorem Listing.call_ok {sys : Sys} {junk : ShmRet} (h : Listing regular k entries)
    (hok : sys.ok = true) (hfits : ∀ name ∈ regionsOf entries, name.val.length < nameMax)
    (h' : Listing regular (opticsUnlinkAll sys entries k junk).2 entries') :
    (regionsOf entries').Perm (regionsOf entries).tail := by
  rw [opticsUnlinkAll_eq] at h'
  rcases hfirst : regionsOf entries with _ | ⟨name, rest⟩
  · rw [hfirst] at h'
    have hperm := h.perm h'
    rw [hfirst] at hperm
    exact hperm
  · rw [hfirst] at h' hfits
    dsimp only at h'
    rw [unlinkFirst, if_pos (hfits name List.mem_cons_self)] at h'
    exact h.perm_unlink hfirst hok h'

theorem Calls.listing {calls : List Sys} (hs : Calls regular calls k k')
    (h' : Listing regular k' entries') : ∃ entries, Listing regular k entries := by
  cases hs with
  | none => exact ⟨_, h'⟩
  | call _ hlist _ => exact ⟨_, hlist⟩

theorem call_others (sys : Sys) (junk : ShmRet) {name : CStr} (hname : name ∉ regionsOf entries) :
    (opticsUnlinkAll sys entries k junk).2.dir name = k.dir name := by
  rw [opticsUnlinkAll_eq]
  rcases hfirst : regionsOf entries with _ | ⟨first, rest⟩
  · rfl
  · have hne : name ≠ first := fun hc => hname (by rw [hfirst, hc]; exact List.mem_cons_self)
    dsimp only
    unfold unlinkFirst shmUnlink
    split_ifs
    · exact Function.update_of_ne hne _ _
    · rfl
    · rfl

/-- What calls one after the other leave of the directory, which had the regions `before`. -/
structure Left (calls : List Sys) (k k' : Kernel) (before after : List CStr) : Prop where
  others : ∀ name, name ∉ before → k'.dir name = k.dir name
  subset : after ⊆ before
  few : before.length ≤ after.length + calls.length
  /-- one region for each call, if all of them succeed -/
  exact : (∀ sys ∈ calls, sys.ok = true) → (∀ name ∈ before, name.val.length < nameMax) →
    after.length = before.length - calls.length

theorem Calls.left {calls : List Sys} (hs : Calls regular calls k k') :
    ∀ {entries entries' : List Dirent}, Listing regular k entries → Listing regular k' entries' →
      Left calls k k' (regionsOf entries) (regionsOf entries') := by
  induction hs with
  | none k =>
    intro entries entries' h h'
    have hperm := h.perm h'
    exact ⟨fun _ _ => rfl, hperm.subset, by rw [hperm.length_eq]; simp,
      fun _ _ => by rw [hperm.length_eq]; simp⟩
  | @call sys calls k k' listed junk hlist hs ih =>
    intro entries entries' h h'
    obtain ⟨middle, hmiddle⟩ := hs.listing h'
    obtain ⟨hothers, hsubset, hfew, hexact⟩ := ih hmiddle h'
    have hperm := h.perm hlist
    have hsub : regionsOf middle ⊆ regionsOf listed := by
      rcases hlist.call hmiddle with hkept | hone
      · exact hkept.subset
      · exact List.Subset.trans hone.subset (List.tail_subset _)
    have hlen : (regionsOf listed).length ≤ (regionsOf middle).length + 1 := by
      rcases hlist.call hmiddle with hkept | hone
      · rw [hkept.length_eq]
        omega
      · rw [hone.length_eq, List.length_tail]
        omega
    refine ⟨fun name hname => ?_, ?_, ?_, fun hok hfits => ?_⟩
    · have hlisted : name ∉ regionsOf listed := fun hc => hname (hperm.subset hc)
      exact (hothers name fun hc => hlisted (hsub hc)).trans (call_others sys junk hlisted)
    · exact List.Subset.trans hsubset (List.Subset.trans hsub hperm.subset)
    · rw [← hperm.length_eq, List.length_cons]
      omega
    · rw [List.forall_mem_cons] at hok
      have hlisted : ∀ name ∈ regionsOf listed, name.val.length < nameMax := fun name hname =>
        hfits name (hperm.subset hname)
      have hone := (hlist.call_ok hok.1 hlisted hmiddle).length_eq
      have hrest := hexact hok.2 fun name hname => hlisted name (hsub hname)
      rw [hrest, hone, List.length_tail, hperm.length_eq, List.length_cons]
      omega

/-- **Unlinking all regions** unlinks one at a time. A call returns true if there was a region,
however many are left; and calls one after the other leave all but one region each. -/
theorem unlink_all (h : Listing regular k entries) :
    (regionsOf entries ≠ [] → ∀ sys junk, (opticsUnlinkAll sys entries k junk).1 = true) ∧
      ∀ calls k' entries', Calls regular calls k k' → Listing regular k' entries' →
        Left calls k k' (regionsOf entries) (regionsOf entries') := by
  refine ⟨fun hsome sys junk => ?_, fun calls k' entries' hs h' => hs.left h h'⟩
  rw [opticsUnlinkAll_eq]
  rcases hfirst : regionsOf entries with _ | ⟨name, rest⟩
  · exact absurd hfirst hsome
  · rfl

/-! ### Two regions -/

def regionA : CStr := ⟨shmPrefix ++ [97], by decide⟩
def regionB : CStr := ⟨shmPrefix ++ [98], by decide⟩

/-- The directory with two regions. -/
def twoFiles : Kernel where
  dir name := if name = regionA ∨ name = regionB then some 0 else none
  files := .empty
  fds := .empty
  maps := .empty

def twoEntries : List Dirent := [⟨true, regionA, none⟩, ⟨true, regionB, none⟩]

theorem listing_two : Listing (fun _ => true) twoFiles twoEntries where
  once := by decide
  names name := by
    simp only [twoEntries, twoFiles, List.map_cons, List.map_nil, List.mem_cons, List.not_mem_nil,
      or_false]
    split_ifs with h <;> simp [h]
  regular entry hentry := by
    obtain rfl | rfl : entry = ⟨true, regionA, none⟩ ∨ entry = ⟨true, regionB, none⟩ := by
      simpa [twoEntries] using hentry
    all_goals rfl

theorem listing_one : Listing (fun _ => true)
    (opticsUnlinkAll ⟨true, false⟩ twoEntries twoFiles (-1)).2 [⟨true, regionB, none⟩] where
  once := by decide
  names name := by
    have hother : regionA ≠ regionB := by decide
    have hregions : regionsOf twoEntries = [regionA, regionB] := rfl
    rw [opticsUnlinkAll_eq, hregions]
    have hfits : regionA.val.length < nameMax := by decide
    simp only [unlinkFirst, if_pos hfits, shmUnlink, if_true, List.map_cons, List.map_nil,
      List.mem_singleton, twoFiles]
    by_cases hname : name = regionA
    · simp [hname, hother]
    · simp [hname]
  regular entry hentry := by
    rw [List.mem_singleton.mp hentry]

/-- After a call that returns true there is one of two regions left. -/
theorem unlink_all_two : ∃ entries', Listing (fun _ => true)
      (opticsUnlinkAll ⟨true, false⟩ twoEntries twoFiles (-1)).2 entries' ∧
    (opticsUnlinkAll ⟨true, false⟩ twoEntries twoFiles (-1)).1 = true ∧
    (regionsOf entries').length = 1 := by
  obtain ⟨htrue, hcalls⟩ := unlink_all listing_two
  have hleft := hcalls [⟨true, false⟩] _ _ (.call (-1) listing_two (.none _)) listing_one
  exact ⟨_, listing_one, htrue (by decide) _ _, hleft.exact (by simp) (by decide)⟩

end Optics.UnlinkAll
