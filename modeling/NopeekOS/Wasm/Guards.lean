import NopeekOS.Security.PathGrants
import NopeekOS.Storage.PathsRefine

/-!
# The path guards of the file host calls (`wasm.rs`)

The guards look at the spelled name; the path layer looks at its segments. The two
agree on every name that `parse_path` accepts: a name is under a directory, as a
string, exactly when the directory's segments are a prefix of its own.
-/

namespace NopeekOS.Wasm

open List

open Lib (ProperPrefix continues_iff_getElem continues_iff_properPrefix)
open Storage Storage.Paths

/-- `wasm` -/
abbrev WASM : Name := [119, 97, 115, 109]
/-- `config` -/
abbrev CONFIG : Name := [99, 111, 110, 102, 105, 103]
/-- `picker` -/
abbrev PICKER : Name := [112, 105, 99, 107, 101, 114]
/-- `launcher` -/
abbrev LAUNCHER : Name := [108, 97, 117, 110, 99, 104, 101, 114]
/-- `vault` -/
abbrev VAULT : Name := [118, 97, 117, 108, 116]
/-- `certs` -/
abbrev CERTS : Name := [99, 101, 114, 116, 115]
/-- `firmware` -/
abbrev FIRMWARE : Name := [102, 105, 114, 109, 119, 97, 114, 101]
/-- `ext::MODULE`, `extfs` (ext.rs:29). -/
abbrev EXT_MODULE : Name := [101, 120, 116, 102, 115]

/-- Segments joined by slashes. -/
def joinPath (segs : List Name) : List Byte := [SLASH].intercalate segs

/-- `path == dir || path.starts_with("dir/")`. -/
def under (dir path : List Byte) : Bool :=
  path == dir || (dir.isPrefixOf path && path[dir.length]? == some SLASH)

/-- `is_ext` (ext.rs:508). -/
def isExt (path : List Byte) : Bool := under EXT_ROOT (trimSlashes path)

variable (name : List Byte)

/-- `private_area_owner` (wasm.rs:1270). -/
def privateAreaOwner : Option Name :=
  match (name.splitOn SLASH).filter (fun s => !s.isEmpty && s != DOT) with
  | [] => none
  | first :: segs =>
    if first != PRIVATE_ROOT then none
    else if (name.splitOn SLASH).any (· == DOT_DOT) then some []
    else segs.head?

/-- `private_area_allows` (wasm.rs:1289). -/
def privateAreaAllows (module : Name) : Bool :=
  match privateAreaOwner name with
  | some owner => owner == module
  | none => true

/-- `is_own_private` (wasm.rs:1302). -/
def isOwnPrivate (module : Name) : Bool :=
  !module.isEmpty && module != EXT_MODULE && privateAreaOwner name == some module

/-- Directories that are closed to apps with all that is below them. -/
def closedDirs : List (List Name) :=
  [[SYS, WASM], [DOT_SYSTEM], [SYS, CERTS], [SYS, FIRMWARE]]

/-- Objects of which only the name itself is closed. -/
def closedFiles : List (List Name) :=
  [[SYS, CONFIG, PICKER], [SYS, CONFIG, LAUNCHER], [SYS, VAULT]]

/-- `is_trust_critical_path` (wasm.rs:1319). -/
def isTrustCriticalPath : Bool :=
  let c := trimSlashes name
  closedDirs.any (fun dir => under (joinPath dir) c) || closedFiles.any fun file => c == joinPath file

/-! ## Names and segments -/

/-- A name is under a directory iff the directory's segments begin its own. -/
theorem under_iff (dir c : List Byte) :
    under dir c = true ↔ dir.splitOn SLASH <+: c.splitOn SLASH := by
  simp only [under, Bool.or_eq_true, beq_iff_eq, Bool.and_eq_true]
  rw [continues_iff_getElem, continues_iff_properPrefix]
  constructor
  · rintro (rfl | ⟨rest, -, h⟩)
    · exact prefix_rfl
    · exact ⟨rest, h.symm⟩
  · rintro ⟨rest, h⟩
    cases rest with
    | nil =>
      left
      rw [append_nil] at h
      have hjoin := congrArg [SLASH].intercalate h
      rw [intercalate_splitOn, intercalate_splitOn] at hjoin
      exact hjoin.symm
    | cons s rest => exact .inr ⟨s :: rest, by simp, h.symm⟩

variable {segs : List Name}

/-- Splitting undoes joining. -/
theorem splitOn_joinPath (hne : segs ≠ []) (h : ∀ s ∈ segs, SLASH ∉ s) :
    (joinPath segs).splitOn SLASH = segs :=
  splitOn_intercalate SLASH h hne

theorem eq_joinPath_iff {c : List Byte} (hne : segs ≠ []) (h : ∀ s ∈ segs, SLASH ∉ s) :
    c = joinPath segs ↔ c.splitOn SLASH = segs := by
  constructor
  · rintro rfl
    exact splitOn_joinPath hne h
  · intro hc
    rw [← hc]
    exact (intercalate_splitOn SLASH).symm

/-- The segments as they are spelled, whether or not the path layer takes them. -/
def spelled : List Name := (trimSlashes name).splitOn SLASH

/-- What `parse_path` returns for a name that does not stand for the root. -/
theorem names_eq_spelled {name : List Byte} (h : PathCall.Names name segs) :
    segs = spelled name := by
  rcases parsePath_ok_iff.mp h.1 with ⟨-, hnil⟩ | ⟨-, hsegs, -⟩
  · exact absurd hnil h.2
  · exact hsegs

theorem dropWhile_of_prefix {c d : List Byte} (h : d <+: c)
    (hc : c.dropWhile (· == SLASH) = c) : d.dropWhile (· == SLASH) = d := by
  cases d with
  | nil => rfl
  | cons b d =>
    obtain ⟨rest, rfl⟩ := h
    rw [cons_append, dropWhile_cons] at hc
    rw [dropWhile_cons]
    split at hc
    · -- A dropped slash would make the list shorter.
      have hlen := congrArg List.length hc
      have := (dropWhile_suffix (l := d ++ rest) (· == SLASH)).length_le
      simp only [length_cons] at hlen
      omega
    · rename_i hb
      rw [if_neg hb]

theorem trimSlashes_idem : trimSlashes (trimSlashes name) = trimSlashes name := by
  have hdrop : (trimSlashes name).dropWhile (· == SLASH) = trimSlashes name :=
    dropWhile_of_prefix ( rdropWhile_prefix _ _) (dropWhile_idempotent _ _)
  rw [trimSlashes, hdrop]
  exact rdropWhile_idempotent _ _

/-- Slashes around a name are not spelled. -/
theorem spelled_trimSlashes : spelled (trimSlashes name) = spelled name := by
  rw [spelled, trimSlashes_idem]
  rfl

/-- Joining valid segments gives a string that is spelled so. -/
theorem spelled_joinPath (hne : segs ≠ []) (h : ∀ s ∈ segs, s ≠ [] ∧ SLASH ∉ s) :
    spelled (joinPath segs) = segs := by
  have hsplit := splitOn_joinPath hne fun s hs => (h s hs).2
  have hdrop : (joinPath segs).dropWhile (· == SLASH) = joinPath segs := by
    obtain ⟨s, ss, rfl⟩ := exists_cons_of_ne_nil hne
    obtain ⟨hs, hslash⟩ := h s mem_cons_self
    obtain ⟨b, bs, rfl⟩ := exists_cons_of_ne_nil hs
    have hb : b ≠ SLASH := fun hb => hslash (by simp [hb])
    have hcons : ∃ rest, joinPath ((b :: bs) :: ss) = b :: rest := by
      cases ss with
      | nil => exact ⟨bs, by simp [joinPath]⟩
      | cons t ts => exact ⟨_, by rw [joinPath, intercalate_cons_cons, cons_append]; rfl⟩
    obtain ⟨rest, hrest⟩ := hcons
    rw [hrest, dropWhile_cons_of_neg (by simpa using hb)]
  have hrdrop : (joinPath segs).rdropWhile (· == SLASH) = joinPath segs := by
    rw [rdropWhile_eq_self_iff]
    intro hjoin hlast
    rw [beq_iff_eq] at hlast
    -- A last slash would leave an empty last segment.
    have hends : joinPath segs = (joinPath segs).dropLast ++ [SLASH] := by
      rw [← hlast]
      exact (dropLast_append_getLast hjoin).symm
    have hempty : [] ∈ segs := by
      rw [← hsplit, hends, splitOn_append_cons_self]
      simp
    exact (h [] hempty).1 rfl
  rw [spelled, trimSlashes, hdrop, hrdrop, hsplit]

end NopeekOS.Wasm
