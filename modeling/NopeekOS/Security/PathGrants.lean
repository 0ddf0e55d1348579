import NopeekOS.Lib.Segments
import NopeekOS.Security.Capability
import NopeekOS.Storage.Object

/-!
# Per-path grants (`security/capability.rs`)

A file picked in the trusted dialog is recorded as a grant of exactly that path,
or of a folder and what lies below it, to the capability that asked. All grants
are in one vector, at most 64 of them for one capability.

A capability's grants are described by a log of its own (`grantLog`): every new
(path, kind) pair is entered at its end, and a pair that is among the last 64
entries is widened in place instead. What holds are the last 64 entries
(`effective`). The vector restricted to a capability is exactly that
(`ofCap_run`), so other capabilities never matter.
-/

namespace NopeekOS.Security

open List

open Lib (ProperPrefix continues_iff_getElem continues_iff_properPrefix)
open Storage (Byte Name SLASH SYS DOT_SYSTEM PRIVATE_ROOT EXT_ROOT)

/-- `MAX_PATH_GRANTS` (capability.rs:326). -/
abbrev MAX_PATH_GRANTS : Nat := 64

/-- `PathGrant` (capability.rs:329). -/
structure PathGrant where
  cap : CapId
  path : List Byte
  rights : Rights
  tree : Bool
  deriving DecidableEq, Repr

namespace PathGrants

/-- `canonical` (capability.rs:362). -/
def canonical (path : List Byte) : Bool :=
  !path.isEmpty && (path.splitOn SLASH).all fun seg =>
    !seg.isEmpty && seg != [46] && seg != [46, 46]

/-- The entry a new grant is merged into. -/
def sameGrant (cap : CapId) (path : List Byte) (tree : Bool) (e : PathGrant) : Bool :=
  e.cap == cap && e.path == path && e.tree == tree

/-- `if let Some(e) = g.iter_mut().find(..) { e.rights |= rights }`. -/
def widen (p : PathGrant → Bool) (rights : Rights) : List PathGrant → List PathGrant
  | [] => []
  | e :: g => if p e then { e with rights := e.rights ||| rights } :: g else e :: widen p rights g

/-- `push_grant` (capability.rs:366). -/
def pushGrant (g : List PathGrant) (cap : CapId) (path : List Byte) (rights : Rights)
    (tree : Bool) : List PathGrant :=
  if g.any (sameGrant cap path tree) then widen (sameGrant cap path tree) rights g
  else
    let g := if MAX_PATH_GRANTS ≤ (g.filter fun e => e.cap == cap).length
      then g.eraseP fun e => e.cap == cap else g
    g ++ [⟨cap, path, rights, tree⟩]

/-- `grant_path` (capability.rs:341). -/
def grantPath (g : List PathGrant) (cap : CapId) (path : List Byte) (rights : Rights) :
    List PathGrant :=
  pushGrant g cap path rights false

/-- What `grant_tree` accepts. -/
def treeAllowed (dir : List Byte) : Bool :=
  let top := (dir.splitOn SLASH).headD []
  canonical dir && !(top == SYS || top == DOT_SYSTEM || top == PRIVATE_ROOT) && dir != EXT_ROOT

/-- `grant_tree` (capability.rs:349): the grants and its answer. -/
def grantTree (g : List PathGrant) (cap : CapId) (dir : List Byte) (rights : Rights) :
    List PathGrant × Bool :=
  if treeAllowed dir then (pushGrant g cap dir rights true, true) else (g, false)

/-- `check_path_grant` (capability.rs:380). -/
def checkPathGrant (g : List PathGrant) (cap : CapId) (path : List Byte) (rights : Rights) : Bool :=
  let canon := canonical path
  g.any fun e =>
    e.cap == cap && e.rights.contains rights && (e.path == path ||
      (e.tree && canon && decide (e.path.length < path.length) && e.path.isPrefixOf path &&
        path[e.path.length]? == some SLASH))

/-- `revoke_path_grants` (capability.rs:392). -/
def revokePathGrants (g : List PathGrant) (cap : CapId) : List PathGrant :=
  g.filter fun e => e.cap != cap

/-- One call. -/
inductive GrantOp where
  | grantPath (cap : CapId) (path : List Byte) (rights : Rights)
  | grantTree (cap : CapId) (dir : List Byte) (rights : Rights)
  | revoke (cap : CapId)
  deriving DecidableEq, Repr

/-- The capability a call is about. -/
def GrantOp.cap : GrantOp → CapId
  | .grantPath c _ _ => c
  | .grantTree c _ _ => c
  | .revoke c => c

/-- The effect of one call on `PATH_GRANTS`. -/
def exec (g : List PathGrant) : GrantOp → List PathGrant
  | .grantPath cap path rights => grantPath g cap path rights
  | .grantTree cap dir rights => (grantTree g cap dir rights).1
  | .revoke cap => revokePathGrants g cap

/-- `PATH_GRANTS` after a sequence of calls. -/
def run (ops : List GrantOp) : List PathGrant := ops.foldl exec []

/-! ## The log of one capability -/

/-- The last `MAX_PATH_GRANTS` entries of a log: those that 64 later ones have not
displaced. -/
def effective (log : List PathGrant) : List PathGrant := log.drop (log.length - MAX_PATH_GRANTS)

/-- A grant of a pair that is among the effective entries widens that entry; any
other is a new entry. -/
def enter (log : List PathGrant) (e : PathGrant) : List PathGrant :=
  if (effective log).any (sameGrant e.cap e.path e.tree) then
    log.take (log.length - MAX_PATH_GRANTS) ++
      widen (sameGrant e.cap e.path e.tree) e.rights (effective log)
  else log ++ [e]

/-- The log of `cap` after one more call. -/
def logOp (cap : CapId) (log : List PathGrant) : GrantOp → List PathGrant
  | .grantPath c path rights => if c = cap then enter log ⟨cap, path, rights, false⟩ else log
  | .grantTree c dir rights =>
    if c = cap ∧ treeAllowed dir then enter log ⟨cap, dir, rights, true⟩ else log
  | .revoke c => if c = cap then [] else log

/-- The log of `cap` since its last revocation. -/
def grantLog (cap : CapId) (ops : List GrantOp) : List PathGrant := ops.foldl (logOp cap) []

/-- The vector's grants of one capability. -/
def ofCap (cap : CapId) (g : List PathGrant) : List PathGrant := g.filter fun e => e.cap == cap

/-! ## The vector restricted to a capability is the end of its log -/

section

variable {g log : List PathGrant} {cap c : CapId} {path : List Byte} {rights : Rights} {tree : Bool}

theorem sameGrant_cap {e : PathGrant} (h : sameGrant c path tree e = true) : e.cap = c := by
  simp only [sameGrant, Bool.and_eq_true, beq_iff_eq] at h
  exact h.1.1

/-- Widening a grant of `c` does not touch the others. -/
theorem ofCap_widen_of_ne (hne : c ≠ cap) :
    ofCap cap (widen (sameGrant c path tree) rights g) = ofCap cap g := by
  induction g with
  | nil => rfl
  | cons e g ih =>
    unfold widen
    split
    · rename_i he
      have hcap : e.cap ≠ cap := fun h => hne ((sameGrant_cap he).symm.trans h)
      simp [ofCap, hcap]
    · simp only [ofCap, filter_cons] at ih ⊢
      rw [ih]

/-- Widening a grant of `cap` happens among its own. -/
theorem ofCap_widen_self : ofCap cap (widen (sameGrant cap path tree) rights g)
      = widen (sameGrant cap path tree) rights (ofCap cap g) := by
  induction g with
  | nil => rfl
  | cons e g ih =>
    by_cases he : sameGrant cap path tree e = true
    · have hcap : e.cap = cap := sameGrant_cap he
      simp [ofCap, widen, he, hcap]
    simp only [ofCap, widen, he, Bool.false_eq_true, if_false, filter_cons] at ih ⊢
    split
    · simp only [widen, he, Bool.false_eq_true, if_false, ih]
    · exact ih

theorem any_sameGrant_ofCap :
    (ofCap cap g).any (sameGrant cap path tree) = g.any (sameGrant cap path tree) := by
  simp only [ofCap, any_filter]
  refine congrArg (List.any g) (funext fun e => ?_)
  cases h : sameGrant cap path tree e with
  | false => simp
  | true => simp [sameGrant_cap h]

theorem ofCap_eraseP_of_ne (hne : c ≠ cap) :
    ofCap cap (g.eraseP fun e => e.cap == c) = ofCap cap g := by
  induction g with
  | nil => rfl
  | cons e g ih =>
    by_cases he : e.cap = c
    · have hcap : e.cap ≠ cap := fun h => hne (he.symm.trans h)
      rw [eraseP_cons_of_pos (by simpa using he)]
      simp [ofCap, hcap]
    · rw [eraseP_cons_of_neg (by simpa using he)]
      simp only [ofCap, filter_cons] at ih ⊢
      rw [ih]

theorem ofCap_eraseP_self : ofCap cap (g.eraseP fun e => e.cap == cap) = (ofCap cap g).drop 1 := by
  have h : ofCap cap (g.eraseP fun e => e.cap == cap) = (ofCap cap g).eraseP fun _ => true :=
    (eraseP_filter (p := fun _ => true)).symm
  rw [h]
  cases ofCap cap g <;> rfl

theorem ofCap_append (g₁ g₂ : List PathGrant) : ofCap cap (g₁ ++ g₂) = ofCap cap g₁ ++ ofCap cap g₂ :=
  filter_append ..

/-- A grant to another capability. -/
theorem ofCap_pushGrant_of_ne (hne : c ≠ cap) :
    ofCap cap (pushGrant g c path rights tree) = ofCap cap g := by
  have hnew : ofCap cap [⟨c, path, rights, tree⟩] = [] := by simp [ofCap, hne]
  unfold pushGrant
  split
  · exact ofCap_widen_of_ne hne
  simp only [ofCap_append, hnew, append_nil]
  split
  · exact ofCap_eraseP_of_ne hne
  · rfl

theorem effective_length (log : List PathGrant) :
    (effective log).length = min log.length MAX_PATH_GRANTS := by
  rw [effective, length_drop]
  omega

theorem widen_length (p : PathGrant → Bool) (r : Rights) (g : List PathGrant) :
    (widen p r g).length = g.length := by
  induction g with
  | nil => rfl
  | cons e g ih =>
    unfold widen
    split
    · rfl
    · rw [length_cons, length_cons, ih]

/-- The effective part may be replaced by one as long. -/
theorem effective_append {old new : List PathGrant} (hnew : new.length ≤ MAX_PATH_GRANTS)
    (hold : old.length = 0 ∨ new.length = MAX_PATH_GRANTS) : effective (old ++ new) = new := by
  rw [effective, length_append]
  exact drop_left' (by omega)

/-- **A grant to `cap` itself is entered in its log.** -/
theorem ofCap_pushGrant_self (h : ofCap cap g = effective log) :
    ofCap cap (pushGrant g cap path rights tree)
      = effective (enter log ⟨cap, path, rights, tree⟩) := by
  have hany : g.any (sameGrant cap path tree) = (effective log).any (sameGrant cap path tree) := by
    rw [← any_sameGrant_ofCap, h]
  unfold pushGrant enter
  rw [hany]
  split
  · -- The pair is there: both sides widen it in place.
    rw [ofCap_widen_self, h]
    refine (effective_append ?_ ?_).symm
    · rw [widen_length, effective_length]
      omega
    · rw [length_take, widen_length, effective_length]
      omega
  · -- A new pair: the oldest of 64 makes room.
    have hnew : ofCap cap [⟨cap, path, rights, tree⟩] = [⟨cap, path, rights, tree⟩] := by
      simp [ofCap]
    have hcount : (g.filter fun e => e.cap == cap).length = min log.length MAX_PATH_GRANTS := by
      rw [show (g.filter fun e => e.cap == cap) = effective log from h, effective_length]
    simp only [ofCap_append, hnew, hcount]
    have hdrop : log.length + 1 - MAX_PATH_GRANTS ≤ log.length := by
      unfold MAX_PATH_GRANTS
      omega
    have hnext : effective (log ++ [⟨cap, path, rights, tree⟩])
        = log.drop (log.length + 1 - MAX_PATH_GRANTS) ++ [⟨cap, path, rights, tree⟩] := by
      rw [effective, length_append, length_singleton,
        drop_append_of_le_length hdrop]
    rw [hnext]
    by_cases hfull : MAX_PATH_GRANTS ≤ log.length
    · rw [if_pos (by omega), ofCap_eraseP_self, h, effective, drop_drop,
        show log.length - MAX_PATH_GRANTS + 1 = log.length + 1 - MAX_PATH_GRANTS by omega]
    · rw [if_neg (by omega), h, effective,
        show log.length - MAX_PATH_GRANTS = log.length + 1 - MAX_PATH_GRANTS by omega]

/-- Revoking drops the grants of one capability and no others. -/
theorem ofCap_revokePathGrants :
    ofCap cap (revokePathGrants g c) = if c = cap then [] else ofCap cap g := by
  unfold ofCap revokePathGrants
  rw [filter_filter]
  split
  · rename_i hc
    subst hc
    simp
  · rename_i hc
    refine congrArg (fun p => List.filter p g) (funext fun e => ?_)
    by_cases he : e.cap = cap <;> simp [he, Ne.symm hc]

/-- One call does to the grants of `cap` what it does to the end of its log. -/
theorem ofCap_exec (op : GrantOp) (h : ofCap cap g = effective log) :
    ofCap cap (exec g op) = effective (logOp cap log op) := by
  cases op with
  | grantPath c path rights =>
    by_cases hc : c = cap
    · subst hc
      simpa only [exec, grantPath, logOp, if_true] using ofCap_pushGrant_self h
    · simpa only [exec, logOp, if_neg hc, grantPath, ofCap_pushGrant_of_ne hc] using h
  | grantTree c dir rights =>
    simp only [exec, logOp, grantTree]
    by_cases hdir : treeAllowed dir = true
    · by_cases hc : c = cap
      · subst hc
        simpa only [hdir, and_self, if_true] using ofCap_pushGrant_self h
      · simpa only [hdir, hc, false_and, if_true, if_false, ofCap_pushGrant_of_ne hc] using h
    · rwa [if_neg hdir, if_neg fun h => hdir h.2]
  | revoke c =>
    rw [exec, logOp, ofCap_revokePathGrants]
    split
    · rfl
    · exact h

/-- **The grants of a capability are the last 64 entries of its log**, whatever
calls were made for it and for others. -/
theorem ofCap_run (cap : CapId) (ops : List GrantOp) :
    ofCap cap (run ops) = effective (grantLog cap ops) :=
  foldl_rel (r := fun g log => ofCap cap g = effective log) rfl fun op _ _ _ h => ofCap_exec op h

/-! ## What a log holds -/

/-- Calls for other capabilities leave the log alone. -/
theorem logOp_of_ne {op : GrantOp} (h : op.cap ≠ cap) : logOp cap log op = log := by
  cases op <;> simp_all [GrantOp.cap, logOp]

/-- Only a capability's own calls are in its log. -/
theorem grantLog_filter (cap : CapId) (ops : List GrantOp) :
    grantLog cap (ops.filter fun op => op.cap == cap) = grantLog cap ops := by
  rw [grantLog, grantLog, foldl_filter]
  refine congrArg (fun f => ops.foldl f []) (funext₂ fun log op => ?_)
  split
  · rfl
  · rename_i hop
    rw [logOp_of_ne (by simpa using hop)]

/-- Every folder in the vector is one `grant_tree` accepts. -/
def TreesAllowed (g : List PathGrant) : Prop := ∀ e ∈ g, e.tree = true → treeAllowed e.path = true

theorem TreesAllowed.widen (h : TreesAllowed g) (p : PathGrant → Bool) :
    TreesAllowed (widen p rights g) := by
  induction g with
  | nil => exact h
  | cons e g ih =>
    obtain ⟨he, hg⟩ := forall_mem_cons.mp h
    unfold PathGrants.widen
    split
    · exact forall_mem_cons.mpr ⟨he, hg⟩
    · exact forall_mem_cons.mpr ⟨he, ih hg⟩

theorem TreesAllowed.pushGrant (h : TreesAllowed g) (hnew : tree = true → treeAllowed path = true) :
    TreesAllowed (pushGrant g cap path rights tree) := by
  unfold PathGrants.pushGrant
  split
  · exact h.widen _
  refine forall_mem_append.mpr ⟨?_, forall_mem_singleton.mpr hnew⟩
  split
  · exact fun x hx => h x (mem_of_mem_eraseP hx)
  · exact h

theorem TreesAllowed.exec (h : TreesAllowed g) (op : GrantOp) : TreesAllowed (exec g op) := by
  cases op with
  | grantPath c path rights => exact h.pushGrant (nofun)
  | grantTree c dir rights =>
    simp only [PathGrants.exec, grantTree]
    split
    · exact h.pushGrant fun _ => ‹_›
    · exact h
  | revoke c => exact fun x hx => h x (mem_of_mem_filter hx)

theorem treesAllowed_run (ops : List GrantOp) : TreesAllowed (run ops) :=
  foldlRecOn ops _ nofun fun _ h op _ => h.exec op

end

/-! ## What a grant covers -/

/-- The segments of a path. -/
def segments (path : List Byte) : List Name := path.splitOn SLASH

/-- `e` covers `path`: the same string, or a folder it properly lies below. -/
def PathGrant.Covers (e : PathGrant) (path : List Byte) : Prop :=
  e.path = path ∨
    (e.tree = true ∧ canonical path = true ∧ ProperPrefix (segments e.path) (segments path))

/-- The string test of `check_path_grant` is the prefix test on segments. -/
theorem startsBelow_iff (dir path : List Byte) :
    (dir.length < path.length ∧ dir.isPrefixOf path = true ∧ path[dir.length]? = some SLASH) ↔
      ProperPrefix (segments dir) (segments path) := by
  unfold segments
  rw [← continues_iff_properPrefix, ← continues_iff_getElem]
  refine ⟨And.right, fun h => ⟨?_, h⟩⟩
  obtain ⟨rest, rfl⟩ := (continues_iff_getElem SLASH dir path).mp h
  simp

theorem checkPathGrant_iff (g : List PathGrant) (cap : CapId) (path : List Byte) (rights : Rights) :
    checkPathGrant g cap path rights = true ↔
      ∃ e ∈ ofCap cap g, e.rights.contains rights = true ∧ PathGrant.Covers e path := by
  simp only [checkPathGrant, any_eq_true, ofCap, mem_filter, PathGrant.Covers,
    ← startsBelow_iff, Bool.and_eq_true, Bool.or_eq_true, beq_iff_eq, decide_eq_true_eq, and_assoc]

/-- The roots no folder grant reaches into. -/
def KernelPrivate (path : List Byte) : Prop :=
  (segments path).headD [] ∈ [SYS, DOT_SYSTEM, PRIVATE_ROOT]

/-- What a folder grant covers starts with the grant's own first segment. -/
theorem PathGrant.Covers.headD_eq {e : PathGrant} {path : List Byte}
    (h : PathGrant.Covers e path) : (segments path).headD [] = (segments e.path).headD [] := by
  rcases h with rfl | ⟨-, -, rest, -, hseg⟩
  · rfl
  obtain ⟨s, ss, hs⟩ := exists_cons_of_ne_nil
    (show segments e.path ≠ [] by simp [segments])
  rw [hseg, hs]
  rfl

theorem not_kernelPrivate_of_treeAllowed {e : PathGrant} {path : List Byte}
    (hallowed : treeAllowed e.path = true) (hcov : PathGrant.Covers e path) :
    ¬ KernelPrivate path := by
  unfold KernelPrivate
  rw [hcov.headD_eq]
  simp only [treeAllowed, Bool.and_eq_true, Bool.not_eq_true', Bool.or_eq_false_iff,
    beq_eq_false_iff_ne] at hallowed
  simp only [segments, mem_cons, not_mem_nil, or_false, not_or]
  exact ⟨hallowed.1.2.1.1, hallowed.1.2.1.2, hallowed.1.2.2⟩

/-- **Path grants.** After any calls, `check_path_grant` says yes exactly when an
entry of the capability's own log that 64 later entries have not displaced has the
rights and covers the path; calls for other capabilities do not enter that log; and
nothing a folder grant covers lies in a kernel-private root. -/
theorem checkPathGrant_run_iff (ops : List GrantOp) (cap : CapId) (path : List Byte)
    (rights : Rights) :
    (checkPathGrant (run ops) cap path rights = true ↔ ∃ e ∈ effective (grantLog cap ops),
        e.rights.contains rights = true ∧ PathGrant.Covers e path) ∧
    grantLog cap ops = grantLog cap (ops.filter fun op => op.cap == cap) ∧
    (∀ e ∈ effective (grantLog cap ops), e.tree = true → PathGrant.Covers e path →
      ¬ KernelPrivate path) := by
  refine ⟨?_, (grantLog_filter cap ops).symm, ?_⟩
  · rw [← ofCap_run]
    exact checkPathGrant_iff ..
  · intro e he htree hcov
    rw [← ofCap_run] at he
    exact not_kernelPrivate_of_treeAllowed
      (treesAllowed_run ops e (mem_of_mem_filter he) htree) hcov

/-- A path granted once for reading and once for writing may be read and written,
though neither call granted both; and a path need not be canonical for its grant
to match. -/
theorem regrant_widens :
    checkPathGrant (run [.grantPath 1 [97] Rights.READ, .grantPath 1 [97] Rights.WRITE]) 1 [97]
        (Rights.READ ||| Rights.WRITE) = true ∧
    Rights.READ.contains (Rights.READ ||| Rights.WRITE) = false ∧
    Rights.WRITE.contains (Rights.READ ||| Rights.WRITE) = false ∧
    checkPathGrant (run [.grantPath 1 [SLASH, 97] Rights.READ]) 1 [SLASH, 97] Rights.READ = true ∧
    canonical [SLASH, 97] = false := by
  decide

end PathGrants

end NopeekOS.Security
