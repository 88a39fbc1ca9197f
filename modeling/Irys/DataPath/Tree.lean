import Irys.DataPath.Path

/-!
# Building the tree, and which paths it accepts

The tree pairs neighbours level by level and carries an odd last node up unchanged; a branch hashes
its children with the left child's upper bound.  `resolveProofs` emits one proof for each leaf.

* `leafNodes`, `buildLayer`, `generateDataRoot`, `resolveProofs` — the construction;
* `Node.Builds` — the node stands for a routed tree; every step of the construction keeps it;
* `data_path_accepted_iff` — against an honest root, exactly the leaf proofs are accepted, each for
  the bytes of its own leaf.
-/

namespace Irys.DataPath

open List

open Irys.Tree (Bytes Digest hashSize HashInjOn)

open Irys.Merkle (RouteBranch Route RouteTree levelUp)

open Irys.Merkle.RouteTree (towards lowerEnd)

/-! ### The construction -/

/-- `Node`.  A node has a data hash or two children, never both; the leaves of an ingress tree
drop the data hash. -/
inductive Node where
  | leaf (id : Digest) (dataHash : Option Digest) (minByteRange maxByteRange : ℕ)
  | branch (id : Digest) (minByteRange maxByteRange : ℕ) (leftChild rightChild : Node)

namespace Node

/-- The node's hash. -/
def id : Node → Digest
  | leaf id _ _ _ => id
  | branch id _ _ _ _ => id

/-- The node's lower bound. -/
def minByteRange : Node → ℕ
  | leaf _ _ low _ => low
  | branch _ low _ _ _ => low

/-- The node's upper bound. -/
def maxByteRange : Node → ℕ
  | leaf _ _ _ high => high
  | branch _ _ high _ _ => high

end Node

structure Proof where
  lastByteIndex : ℕ
  proof : Bytes
  deriving DecidableEq

/-- The tree builder's only error. -/
inductive TreeError where
  | noNodes
  deriving DecidableEq

section Build

variable (sha256 : Bytes → Digest)

/-- A leaf over the bytes from `low` to `high`. -/
def leafNode (dataHash : Digest) (low high : ℕ) : Node :=
  .leaf (hashAllSha256 sha256 [dataHash.bytes, toNoteVec high]) (some dataHash) low high

/-- Leaves for data hashes with their upper bounds. -/
def leafNodes : (low : ℕ) → List (Digest × ℕ) → List Node
  | _, [] => []
  | low, (dataHash, high) :: rest => leafNode sha256 dataHash low high :: leafNodes high rest

/-- The leaf loop over data hashes with their lengths; the bound is a machine word. -/
def generateLeaves : (low : ℕ) → List (Digest × ℕ) → Res TreeError (List Node)
  | _, [] => .ok []
  | low, (dataHash, length) :: rest => do
    let high ← expect (checkedAdd 64 low length)
    let leaves ← generateLeaves high rest
    return leafNode sha256 dataHash low high :: leaves

def generateLeavesFromChunks (chunks : List Bytes) : Res TreeError (List Node) :=
  generateLeaves sha256 0 (chunks.map fun chunk => (sha256 chunk, chunk.length))

/-- `generate_leaves_from_data_roots`, for data roots with their transactions' sizes. -/
def generateLeavesFromDataRoots (dataRoots : List (Digest × ℕ)) : Res TreeError (List Node) :=
  generateLeaves sha256 0 dataRoots

def hashBranch (left right : Node) : Node :=
  .branch (hashAllSha256 sha256 [left.id.bytes, right.id.bytes, toNoteVec left.maxByteRange])
    left.minByteRange right.maxByteRange left right

def buildLayer (nodes : List Node) : List Node := levelUp (hashBranch sha256) nodes

/-- The loop of `generate_data_root`; a layer is shorter than the one below. -/
def buildLayers : (fuel : ℕ) → List Node → List Node
  | 0, nodes => nodes
  | fuel + 1, nodes =>
    if 1 < nodes.length then buildLayers fuel (buildLayer sha256 nodes) else nodes

def generateDataRoot (nodes : List Node) : Res TreeError Node :=
  match (buildLayers sha256 nodes.length nodes).getLast? with
  | some root => .ok root
  | none => fail .noNodes

end Build

/-- `resolve_proofs`; the call at the root starts from the empty proof. -/
def resolveProofs : Node → Proof → Res TreeError (List Proof)
  | .leaf _ (some dataHash) _ high, proof => do
    let last ← expect (checkedSub high 1)
    return [⟨last, proof.proof ++ (dataHash.bytes ++ toNoteVec high)⟩]
  | .leaf _ none _ _, _ => .error .panic
  | .branch _ _ _ left right, proof => do
    let proof := { proof with proof :=
      proof.proof ++ (left.id.bytes ++ right.id.bytes ++ toNoteVec left.maxByteRange) }
    let leftProofs ← resolveProofs left proof
    let rightProofs ← resolveProofs right proof
    return leftProofs ++ rightProofs

/-! ### The routed tree a node stands for -/

section Builds

variable {sha256 : Bytes → Digest}

/-- **The node stands for the tree.** -/
inductive Node.Builds (sha256 : Bytes → Digest) : Node → RouteTree Digest ℕ → Prop
  | leaf (dataHash : Digest) (low high : ℕ) :
      Node.Builds sha256 (leafNode sha256 dataHash low high) (.leaf dataHash high)
  | branch {left right : Node} {l r : RouteTree Digest ℕ} (hl : left.Builds sha256 l)
      (hr : right.Builds sha256 r) :
      Node.Builds sha256 (hashBranch sha256 left right) (.node l r)

variable {n : Node} {t : RouteTree Digest ℕ} {path c : Bytes}

theorem Node.Builds.maxByteRange_eq (h : n.Builds sha256 t) : n.maxByteRange = t.bound := by
  induction h with
  | leaf dataHash low high => rfl
  | branch hl hr ihl ihr => exact ihr

theorem Node.Builds.id_eq (h : n.Builds sha256 t) : n.id = t.id (pathHash sha256) := by
  induction h with
  | leaf dataHash low high => rfl
  | branch hl hr ihl ihr =>
    rw [RouteTree.id, ← ihl, ← ihr, ← hl.maxByteRange_eq]
    rfl

theorem builds_levelUp {ns : List Node} {ts : List (RouteTree Digest ℕ)}
    (h : List.Forall₂ (Node.Builds sha256) ns ts) :
    List.Forall₂ (Node.Builds sha256) (levelUp (hashBranch sha256) ns)
      (levelUp RouteTree.node ts) := by
  fun_induction levelUp (hashBranch sha256) ns generalizing ts with
  | case1 a b rest ih =>
    cases h with
    | cons ha h =>
      cases h with
      | cons hb h => exact .cons (.branch ha hb) (ih h)
  | case2 a =>
    cases h with
    | cons ha h =>
      cases h with
      | nil => exact .cons ha .nil
  | case3 =>
    cases h with
    | nil => exact .nil

theorem leaves_levelUp (ts : List (RouteTree Digest ℕ)) :
    (levelUp RouteTree.node ts).flatMap RouteTree.leaves = ts.flatMap RouteTree.leaves := by
  fun_induction levelUp RouteTree.node ts with
  | case1 a b rest ih =>
    rw [flatMap_cons, ih, flatMap_cons, flatMap_cons, RouteTree.leaves, append_assoc]
  | case2 a => rfl
  | case3 => rfl

theorem builds_buildLayers {fuel : ℕ} {ns : List Node} {ts : List (RouteTree Digest ℕ)}
    (h : List.Forall₂ (Node.Builds sha256) ns ts) (hne : ns ≠ []) (hfuel : ns.length ≤ fuel) :
    ∃ root t, buildLayers sha256 fuel ns = [root] ∧ root.Builds sha256 t ∧
      t.leaves = ts.flatMap RouteTree.leaves := by
  induction fuel generalizing ns ts with
  | zero => exact absurd (length_eq_zero_iff.mp (Nat.le_zero.mp hfuel)) hne
  | succ fuel ih =>
    rw [buildLayers]
    split
    · next hlen =>
        have hlt := Merkle.levelUp_length_lt (hashBranch sha256) hlen
        have hne' : buildLayer sha256 ns ≠ [] := by
          rw [buildLayer, ← length_pos_iff, Merkle.levelUp_length]
          omega
        obtain ⟨root, t, hroot, ht, hleaves⟩ := ih (builds_levelUp h) hne'
          (show (levelUp (hashBranch sha256) ns).length ≤ fuel by omega)
        exact ⟨root, t, hroot, ht, hleaves.trans (leaves_levelUp ts)⟩
    · next hlen =>
        have hpos := length_pos_of_ne_nil hne
        obtain ⟨root, rfl⟩ := length_eq_one_iff.mp (show ns.length = 1 by omega)
        obtain ⟨t, rest, ht, hrest, rfl⟩ := forall₂_cons_left_iff.mp h
        rw [forall₂_nil_left_iff.mp hrest]
        exact ⟨root, t, rfl, ht, by simp⟩

theorem builds_leafNodes (low : ℕ) (leaves : List (Digest × ℕ)) :
    List.Forall₂ (Node.Builds sha256) (leafNodes sha256 low leaves)
      (leaves.map fun l => .leaf l.1 l.2) := by
  induction leaves generalizing low with
  | nil => exact .nil
  | cons l rest ih => exact .cons (.leaf l.1 low l.2) (ih l.2)

/-- **The root stands for a tree of the given leaves.** -/
theorem builds_generateDataRoot {leaves : List (Digest × ℕ)} (hne : leaves ≠ []) (low : ℕ) :
    ∃ root t, generateDataRoot sha256 (leafNodes sha256 low leaves) = .ok root ∧
      root.Builds sha256 t ∧ t.leaves = leaves := by
  have hbuilds := @builds_leafNodes sha256 low leaves
  have hne' : leafNodes sha256 low leaves ≠ [] := by
    intro hnil
    have hlen := hbuilds.length_eq
    rw [hnil, length_map, length_nil] at hlen
    exact hne (length_eq_zero_iff.mp hlen.symm)
  obtain ⟨root, t, hroot, ht, hleaves⟩ := builds_buildLayers hbuilds hne' le_rfl
  refine ⟨root, t, by rw [generateDataRoot, hroot]; rfl, ht, ?_⟩
  rw [hleaves, flatMap_map]
  exact flatMap_singleton' leaves

/-- Leaves with their lengths in place of their upper bounds. -/
def withLengths : (low : ℕ) → List (Digest × ℕ) → List (Digest × ℕ)
  | _, [] => []
  | low, (dataHash, high) :: rest => (dataHash, high - low) :: withLengths high rest

/-- **The leaf loop makes the leaves.** -/
theorem generateLeaves_withLengths {low : ℕ} {leaves : List (Digest × ℕ)}
    (hord : (low :: leaves.map Prod.snd).Pairwise (· < ·)) (hmax : ∀ l ∈ leaves, l.2 < 2 ^ 64) :
    generateLeaves sha256 low (withLengths low leaves) = .ok (leafNodes sha256 low leaves) := by
  induction leaves generalizing low with
  | nil => rfl
  | cons l rest ih =>
    obtain ⟨hlow, hrest⟩ := pairwise_cons.mp hord
    obtain ⟨hl, hmax⟩ := forall_mem_cons.mp hmax
    have hhigh : low + (l.2 - low) = l.2 := Nat.add_sub_cancel' (hlow l.2 mem_cons_self).le
    rw [withLengths, generateLeaves, checkedAdd_of_lt (by omega), expect_some, ok_bind, hhigh,
      ih hrest hmax]
    rfl

/-! ### Proofs as bytes -/

/-- A branch as bytes. -/
def encodeBranch (b : RouteBranch Digest ℕ) : Bytes :=
  b.left.bytes ++ b.right.bytes ++ toNoteVec b.pivot

/-- A proof as bytes. -/
def encodeRoute (r : Route Digest Digest ℕ) : Bytes :=
  r.branches.flatMap encodeBranch ++ (r.value.bytes ++ toNoteVec r.bound)

@[simp] theorem encodeBranch_length (b : RouteBranch Digest ℕ) :
    (encodeBranch b).length = branchProofLen := by
  simp [encodeBranch, b.left.size_eq, b.right.size_eq, branchProofLen, hashSize, noteSize]

theorem encodeRoute_length (r : Route Digest Digest ℕ) :
    (encodeRoute r).length = r.branches.length * branchProofLen + leafProofLen := by
  have hflat : (r.branches.flatMap encodeBranch).length = r.branches.length * branchProofLen := by
    induction r.branches with
    | nil => rw [flatMap_nil, length_nil, length_nil, Nat.zero_mul]
    | cons b bs ih =>
      rw [flatMap_cons, length_append, ih, encodeBranch_length, length_cons]
      ring
  rw [encodeRoute, length_append, hflat]
  simp [r.value.size_eq, leafProofLen, hashSize, noteSize]

theorem encodeBranch_inj {b b' : RouteBranch Digest ℕ} (hb : b.pivot < 2 ^ 64) (hb' : b'.pivot < 2 ^ 64)
    (h : encodeBranch b = encodeBranch b') : b = b' := by
  obtain ⟨hids, hnote⟩ := append_inj h (by
    rw [length_append, length_append, b.left.size_eq, b.right.size_eq, b'.left.size_eq,
      b'.right.size_eq])
  obtain ⟨hl, hr⟩ := append_inj hids (by rw [b.left.size_eq, b'.left.size_eq])
  exact RouteBranch.ext (Digest.ext hl) (Digest.ext hr) (toNoteVec_inj hb hb' hnote)

theorem encodeRoute_inj {r r' : Route Digest Digest ℕ}
    (hr : (∀ b ∈ r.branches, b.pivot < 2 ^ 64) ∧ r.bound < 2 ^ 64)
    (hr' : (∀ b ∈ r'.branches, b.pivot < 2 ^ 64) ∧ r'.bound < 2 ^ 64)
    (h : encodeRoute r = encodeRoute r') : r = r' := by
  obtain ⟨bs, v, k⟩ := r
  obtain ⟨bs', v', k'⟩ := r'
  have hlen : bs.length = bs'.length := by
    have hbytes := congrArg List.length h
    rw [encodeRoute_length, encodeRoute_length] at hbytes
    exact Nat.eq_of_mul_eq_mul_right (by decide : 0 < branchProofLen) (Nat.add_right_cancel hbytes)
  induction bs generalizing bs' with
  | nil =>
    have hnil : bs' = [] := length_eq_zero_iff.mp hlen.symm
    subst hnil
    have hbytes : v.bytes ++ toNoteVec k = v'.bytes ++ toNoteVec k' := h
    obtain ⟨hv, hk⟩ := append_inj hbytes (by rw [v.size_eq, v'.size_eq])
    exact Route.ext rfl (Digest.ext hv) (toNoteVec_inj hr.2 hr'.2 hk)
  | cons b bs ih =>
    cases bs' with
    | nil => simp at hlen
    | cons b' bs' =>
      rw [encodeRoute, encodeRoute, flatMap_cons, flatMap_cons, append_assoc, append_assoc] at h
      obtain ⟨hb, hrest⟩ := append_inj h (by simp)
      have heq := ih ⟨fun x hx => hr.1 x (mem_cons_of_mem _ hx), hr.2⟩ bs'
        ⟨fun x hx => hr'.1 x (mem_cons_of_mem _ hx), hr'.2⟩ hrest (Nat.succ.inj hlen)
      rw [Route.mk.injEq] at heq
      rw [encodeBranch_inj (hr.1 b mem_cons_self) (hr'.1 b' mem_cons_self) hb, heq.1,
        heq.2.1, heq.2.2]

/-- **The emitted proofs encode the routes of the tree**, in order. -/
theorem resolveProofs_eq_ok (h : n.Builds sha256 t) (hpos : ∀ k ∈ t.bounds, 0 < k) (proof : Proof) :
    resolveProofs n proof = .ok ((t.routes (pathHash sha256)).map fun r =>
      ⟨r.bound - 1, proof.proof ++ encodeRoute r⟩) := by
  induction h generalizing proof with
  | leaf dataHash low high =>
    have hhigh : 0 < high := hpos high (by simp)
    rw [leafNode, resolveProofs, checkedSub_of_le hhigh, expect_some, ok_bind]
    rfl
  | branch hl hr ihl ihr =>
    rename_i left right l r
    rw [RouteTree.bounds_node] at hpos
    have hbranch : left.id.bytes ++ right.id.bytes ++ toNoteVec left.maxByteRange
        = encodeBranch (RouteTree.branch (pathHash sha256) l r) := by
      rw [hl.id_eq, hr.id_eq, hl.maxByteRange_eq]
      rfl
    simp only [hashBranch, resolveProofs]
    rw [hbranch, ihl (fun k hk => hpos k (mem_append_left _ hk)), ok_bind,
      ihr (fun k hk => hpos k (mem_append_right _ hk)), ok_bind, RouteTree.routes,
      List.map_map, ← map_append]
    refine congrArg Except.ok (map_congr_left fun p _ => ?_)
    simp [Route.under, encodeRoute]

/-! ### Paths without their notepads -/

/-- The bytes of a path with every notepad cleared. -/
def zeroNotepads (path : Bytes) : Bytes :=
  let branchesLen := path.length - leafProofLen
  let leaf := path.drop branchesLen
  let zeros : Bytes := List.replicate (noteSize - 8) 0
  (chunks branchProofLen (branchesLen / branchProofLen) (path.take branchesLen)).flatMap
      (fun c => c.take 64 ++ zeros ++ c.drop 88)
    ++ (leaf.take 32 ++ zeros ++ leaf.drop 56)

theorem ensureProofLayout_eq_ok {n : ℕ} :
    ensureProofLayout path = .ok n ↔
      leafProofLen ≤ path.length ∧ n = path.length - leafProofLen ∧ n % branchProofLen = 0 := by
  rw [ensureProofLayout, checkedSub]
  by_cases h : leafProofLen ≤ path.length
  · simp only [if_pos h, ite_fail_eq_ok, Except.ok.injEq]
    exact ⟨fun ⟨haligned, hn⟩ => ⟨h, hn.symm, hn ▸ haligned⟩, fun ⟨_, hn, haligned⟩ =>
      ⟨hn ▸ haligned, hn.symm⟩⟩
  · rw [if_neg h]
    exact ⟨nofun, fun hn => absurd hn.1 h⟩

theorem length_of_mem_chunks {width count : ℕ} {bytes : Bytes}
    (hlen : count * width ≤ bytes.length) (hc : c ∈ chunks width count bytes) :
    c.length = width := by
  induction count generalizing bytes with
  | zero => exact absurd hc not_mem_nil
  | succ count ih =>
    rw [Nat.add_mul, Nat.one_mul] at hlen
    rcases mem_cons.mp hc with rfl | hc
    · rw [length_take]
      omega
    · exact ih (by rw [length_drop]; omega) hc

theorem toNoteVec_fromBe {bytes : Bytes} (h : bytes.length = 8) :
    toNoteVec (fromBe bytes) = List.replicate (noteSize - 8) 0 ++ bytes := by
  rw [toNoteVec, ← h, be_fromBe]

theorem tryFromProofSlice_branch (h : c.length = branchProofLen) :
    ∃ p, BranchProof.tryFromProofSlice c = some p ∧
      c.take 64 ++ List.replicate (noteSize - 8) 0 ++ c.drop 88 = encodeBranch p.branch := by
  refine ⟨_, dif_pos h, ?_⟩
  have hnote : (c.drop 88).length = 8 := by
    rw [length_drop, h]
    rfl
  show _ = c.take 32 ++ (c.drop 32).take 32 ++ toNoteVec (fromBe (c.drop 88))
  rw [toNoteVec_fromBe hnote, ← take_add, append_assoc]

theorem tryFromProofSlice_leaf (h : c.length = leafProofLen) :
    ∃ p, LeafProof.tryFromProofSlice c = some p ∧
      c.take 32 ++ List.replicate (noteSize - 8) 0 ++ c.drop 56
        = p.dataHash.bytes ++ toNoteVec p.offset := by
  refine ⟨_, dif_pos h, ?_⟩
  have hnote : (c.drop 56).length = 8 := by
    rw [length_drop, h]
    rfl
  show _ = c.take 32 ++ toNoteVec (fromBe (c.drop 56))
  rw [toNoteVec_fromBe hnote, append_assoc]

theorem mapM_tryFromProofSlice {cs : List Bytes} (h : ∀ c ∈ cs, c.length = branchProofLen) :
    ∃ ps, cs.mapM BranchProof.tryFromProofSlice = some ps ∧
      cs.flatMap (fun c => c.take 64 ++ List.replicate (noteSize - 8) 0 ++ c.drop 88)
        = (ps.map BranchProof.branch).flatMap encodeBranch := by
  induction cs with
  | nil => exact ⟨[], rfl, rfl⟩
  | cons c cs ih =>
    obtain ⟨p, hp, hbytes⟩ := tryFromProofSlice_branch (h c mem_cons_self)
    obtain ⟨ps, hps, hrest⟩ := ih fun x hx => h x (mem_cons_of_mem _ hx)
    refine ⟨p :: ps, ?_, ?_⟩
    · rw [mapM_cons, hp, hps]
      rfl
    · rw [flatMap_cons, hbytes, hrest]
      rfl

/-- **A path of the right layout reads as a route**, which encodes to the path without its
notepads. -/
theorem readPath_of_layout {n : ℕ} (h : ensureProofLayout path = .ok n) :
    ∃ p, readPath path = some p ∧ encodeRoute p.route = zeroNotepads path := by
  obtain ⟨hlen, hn, haligned⟩ := ensureProofLayout_eq_ok.mp h
  have hcount : n / branchProofLen * branchProofLen = n :=
    Nat.div_mul_cancel (Nat.dvd_of_mod_eq_zero haligned)
  have hwhole : n / branchProofLen * branchProofLen ≤ (path.take n).length := by
    rw [hcount, length_take]
    omega
  obtain ⟨ps, hps, hbranches⟩ := mapM_tryFromProofSlice fun c hc =>
    length_of_mem_chunks hwhole hc
  obtain ⟨leaf, hleaf, hbytes⟩ := @tryFromProofSlice_leaf (path.drop n)
    (by rw [length_drop]; omega)
  refine ⟨⟨ps, leaf⟩, readPath_eq_some.mpr ⟨n, h, hps, hleaf⟩, ?_⟩
  simp only [zeroNotepads]
  rw [← hn, hbranches, hbytes]
  rfl

theorem layout_of_readPath {p : ParsedPath} (h : readPath path = some p) :
    ∃ n, ensureProofLayout path = .ok n := by
  obtain ⟨n, hn, -⟩ := readPath_eq_some.mp h
  exact ⟨n, hn⟩

/-! ### What an honest root accepts -/

/-- Hashed for a node and all below it. -/
def Node.strings (sha256 : Bytes → Digest) : Node → List Bytes
  | .leaf _ (some dataHash) _ high => leafStrings sha256 dataHash high
  | .leaf _ none _ _ => []
  | .branch _ _ _ left right =>
    branchStrings sha256 ⟨left.id, right.id, left.maxByteRange⟩
      ++ (left.strings sha256 ++ right.strings sha256)

theorem Node.Builds.hashed {S : List Bytes} (h : n.Builds sha256 t) (hS : n.strings sha256 ⊆ S)
    (hlt : ∀ k ∈ t.bounds, k < 2 ^ 64) :
    (∀ b ∈ t.branches (pathHash sha256), b ∈ hashedBranches sha256 S) ∧
      ∀ l ∈ t.leaves, l ∈ hashedLeaves sha256 S := by
  induction h with
  | leaf dataHash low high =>
    refine ⟨fun b hb => absurd hb not_mem_nil, fun l hl => ?_⟩
    rw [mem_singleton.mp hl]
    exact ⟨hS, hlt high (by simp)⟩
  | branch hl hr ihl ihr =>
    rename_i left right l r
    simp only [RouteTree.bounds_node, mem_append, or_imp, forall_and] at hlt
    obtain ⟨hS, hSl, hSr⟩ := (append_subset.trans (and_congr_right' append_subset)).mp hS
    obtain ⟨hbl, hll⟩ := ihl hSl hlt.1
    obtain ⟨hbr, hlr⟩ := ihr hSr hlt.2
    rw [hl.id_eq, hr.id_eq, hl.maxByteRange_eq] at hS
    simp only [RouteTree.branches, RouteTree.leaves, mem_cons, mem_append, or_imp, forall_and,
      forall_eq]
    exact ⟨⟨⟨hS, hlt.1 _ (mem_of_getLast? l.getLast?_bounds)⟩, hbl, hbr⟩, hll, hlr⟩

section Accepts

variable {S : List Bytes} {root : Node} {t : RouteTree Digest ℕ} {leaves : List (Digest × ℕ)}
  {path : Bytes} {target i : ℕ} {dataHash : Digest} {high : ℕ}

variable (sha256) in
/-- **The leaf that a target is led to**, with the proof emitted for it. -/
theorem route_leaf (ht : t.leaves = leaves) (hord : (leaves.map Prod.snd).Pairwise (· < ·))
    (hi : leaves[i]? = some (dataHash, high))
    (hlow : lowerEnd 0 (leaves.map Prod.snd) i ≤ target)
    (hhigh : target < high ∨ i + 1 = leaves.length) :
    (t.routes (pathHash sha256))[i]? = some (t.route (pathHash sha256) (towards target)) ∧
      (t.route (pathHash sha256) (towards target)).value = dataHash ∧
      (t.route (pathHash sha256) (towards target)).bound = high ∧
      Merkle.lowerBound (towards target) 0 (t.route (pathHash sha256) (towards target)).branches
        = lowerEnd 0 (leaves.map Prod.snd) i ∧
      Merkle.rightmost (towards target) (t.route (pathHash sha256) (towards target)).branches
        = decide (i + 1 = leaves.length) := by
  have hbounds : t.bounds = leaves.map Prod.snd := by rw [RouteTree.bounds, ht]
  have hget : t.bounds[i]? = some high := by rw [hbounds, getElem?_map, hi]; rfl
  have hlen : t.bounds.length = leaves.length := by rw [hbounds, length_map]
  rw [← hbounds] at hord hlow ⊢
  rw [← hlen] at hhigh
  obtain ⟨hroute, hlb, hright⟩ := @RouteTree.route_spec _ _ _ (pathHash sha256) _ t hord 0 target i
    high hget hlow hhigh
  have hleaf := congrArg (fun l => l[i]?) (@RouteTree.routes_map_leaf _ _ _ (pathHash sha256) t)
  simp only [getElem?_map, hroute, ht, hi, Option.map_some, Option.some.injEq,
    Prod.mk.injEq] at hleaf
  refine ⟨hroute, hleaf.1, hleaf.2, hlb, ?_⟩
  rw [← hlen, Bool.eq_iff_iff, hright, decide_eq_true_iff]

/-- **An accepted path is the proof of the leaf that holds the target.** -/
theorem leaf_of_accepted (hinj : HashInjOn sha256 (root.strings sha256 ++ pathStrings sha256 path))
    (hbuilds : root.Builds sha256 t) (ht : t.leaves = leaves)
    (hord : (leaves.map Prod.snd).Pairwise (· < ·)) (hlt : ∀ k ∈ t.bounds, k < 2 ^ 64)
    {r : ValidatePathResult} (h : validatePath sha256 root.id path target = .ok r) :
    ∃ i dataHash high, leaves[i]? = some (dataHash, high) ∧
      (t.routes (pathHash sha256))[i]? = some (t.route (pathHash sha256) (towards target)) ∧
      (∃ n, ensureProofLayout path = .ok n) ∧
      zeroNotepads path = encodeRoute (t.route (pathHash sha256) (towards target)) ∧
      (lowerEnd 0 (leaves.map Prod.snd) i ≤ target ∧ target < high ∨
        i + 1 = leaves.length ∧ target = high) ∧
      r = ⟨dataHash, lowerEnd 0 (leaves.map Prod.snd) i, high,
        decide (i + 1 = leaves.length)⟩ := by
  obtain ⟨hB, hL⟩ := hbuilds.hashed (subset_append_left _ (pathStrings sha256 path)) hlt
  rw [hbuilds.id_eq] at h
  obtain ⟨p, hread, hdesc, -, hbound, rfl⟩ := validatePath_eq_ok.mp h
  obtain ⟨hbs, hl⟩ := route_hashed hread (subset_append_right (root.strings sha256) _)
  have hroute := (RouteTree.descends_iff (pathHash_bindsOn hinj) hB hL hbs hl).mp hdesc
  -- the interval that holds the target
  have hne : leaves.map Prod.snd ≠ [] := by
    rw [← ht]
    exact t.bounds_ne_nil
  obtain ⟨i, k, hk, hlow, hhigh⟩ := RouteTree.exists_interval hne (Nat.zero_le target)
  rw [getElem?_map, Option.map_eq_some_iff] at hk
  obtain ⟨⟨dataHash, high⟩, hi, rfl⟩ := hk
  rw [length_map] at hhigh
  obtain ⟨hget, hvalue, hhigh', hlb, hright⟩ := route_leaf sha256 ht hord hi hlow hhigh
  obtain ⟨n, hn⟩ := layout_of_readPath hread
  obtain ⟨p', hread', hbytes⟩ := readPath_of_layout hn
  cases hread.symm.trans hread'
  refine ⟨i, dataHash, high, hi, hget, ⟨n, hn⟩, by rw [← hbytes, hroute], ?_, ?_⟩
  · rw [hroute, hhigh'] at hbound
    rcases hhigh with hhigh | hhigh
    · exact .inl ⟨hlow, hhigh⟩
    · rcases hbound.lt_or_eq with hlt | heq
      · exact .inl ⟨hlow, hlt⟩
      · exact .inr ⟨hhigh, heq⟩
  · rw [hroute, hvalue, hhigh', hlb, hright]

/-- **The proof of the leaf that holds the target is accepted**, with any notepads. -/
theorem accepted_of_leaf (hbuilds : root.Builds sha256 t) (ht : t.leaves = leaves)
    (hord : (0 :: leaves.map Prod.snd).Pairwise (· < ·)) (hlt : ∀ k ∈ t.bounds, k < 2 ^ 64)
    (hi : leaves[i]? = some (dataHash, high)) {route : Route Digest Digest ℕ}
    (hroutes : (t.routes (pathHash sha256))[i]? = some route) {n : ℕ}
    (hn : ensureProofLayout path = .ok n) (hzero : zeroNotepads path = encodeRoute route)
    (hrange : lowerEnd 0 (leaves.map Prod.snd) i ≤ target ∧ target < high ∨
      i + 1 = leaves.length ∧ target = high) :
    validatePath sha256 root.id path target =
      .ok ⟨dataHash, lowerEnd 0 (leaves.map Prod.snd) i, high, decide (i + 1 = leaves.length)⟩ := by
  have hlow' : lowerEnd 0 (leaves.map Prod.snd) i < high :=
    RouteTree.lowerEnd_lt hord (by rw [getElem?_map, hi]; rfl)
  have hin : lowerEnd 0 (leaves.map Prod.snd) i ≤ target ∧
      (target < high ∨ i + 1 = leaves.length) ∧ target ≤ high := by
    rcases hrange with ⟨hlow, hhigh⟩ | ⟨hlast, rfl⟩
    · exact ⟨hlow, .inl hhigh, hhigh.le⟩
    · exact ⟨hlow'.le, .inr hlast, le_rfl⟩
  obtain ⟨hlow, hhigh, hle⟩ := hin
  obtain ⟨hget, hvalue, hhigh', hlb, hright⟩ :=
    route_leaf sha256 ht (pairwise_cons.mp hord).2 hi hlow hhigh
  rw [hget, Option.some.injEq] at hroutes
  obtain ⟨p, hread, hbytes⟩ := readPath_of_layout hn
  obtain ⟨hB, hL⟩ := hbuilds.hashed (List.Subset.refl _) hlt
  obtain ⟨hsub, hmem⟩ := @RouteTree.route_subset _ _ _ (pathHash sha256) (towards target) t
  obtain ⟨hbs, hl⟩ := route_hashed hread (List.Subset.refl (pathStrings sha256 path))
  have hroute : p.route = t.route (pathHash sha256) (towards target) := by
    refine encodeRoute_inj ⟨fun b hb => (hbs b hb).2, hl.2⟩
      ⟨fun b hb => (hB b (hsub b hb)).2, (hL _ hmem).2⟩ ?_
    rw [hbytes, hzero, hroutes]
  refine validatePath_eq_ok.mpr ⟨p, hread, ?_, ?_, ?_, ?_⟩
  · rw [hbuilds.id_eq, hroute]
    exact t.descends_route
  · rw [hroute, hlb]
    exact hlow
  · rw [hroute, hhigh']
    exact hle
  · rw [hroute, hvalue, hhigh', hlb, hright]

end Accepts

end Builds

/-- **Exact acceptance.**  For leaves with increasing upper bounds the leaves, the root and the leaf
proofs are built, and against that root a path is accepted for a target exactly when, its notepads
aside, it is the proof of the leaf whose bytes hold the target (the last leaf also takes its
own end); the result describes that leaf. -/
theorem data_path_accepted_iff (sha256 : Bytes → Digest) (leaves : List (Digest × ℕ))
    (hne : leaves ≠ []) (hord : (0 :: leaves.map Prod.snd).Pairwise (· < ·))
    (hmax : ∀ l ∈ leaves, l.2 ≤ 2 ^ 63) :
    ∃ nodes root proofs, generateLeavesFromDataRoots sha256 (withLengths 0 leaves) = .ok nodes ∧
      generateDataRoot sha256 nodes = .ok root ∧
      resolveProofs root ⟨0, []⟩ = .ok proofs ∧ proofs.length = leaves.length ∧
      ∀ path target r, HashInjOn sha256 (root.strings sha256 ++ pathStrings sha256 path) →
        (validatePath sha256 root.id path target = .ok r ↔
          ∃ i dataHash high proof, leaves[i]? = some (dataHash, high) ∧ proofs[i]? = some proof ∧
            (∃ n, ensureProofLayout path = .ok n) ∧ zeroNotepads path = proof.proof ∧
            (lowerEnd 0 (leaves.map Prod.snd) i ≤ target ∧ target < high ∨
              i + 1 = leaves.length ∧ target = high) ∧
            r = ⟨dataHash, lowerEnd 0 (leaves.map Prod.snd) i, high,
              decide (i + 1 = leaves.length)⟩) := by
  obtain ⟨root, t, hroot, hbuilds, ht⟩ := @builds_generateDataRoot sha256 leaves hne 0
  obtain ⟨hfirst, hord'⟩ := pairwise_cons.mp hord
  have hbounds : t.bounds = leaves.map Prod.snd := by rw [RouteTree.bounds, ht]
  have hpos : ∀ k ∈ t.bounds, 0 < k := fun k hk => hfirst k (hbounds ▸ hk)
  have hmax : ∀ l ∈ leaves, l.2 < 2 ^ 64 := fun l hl => (hmax l hl).trans_lt (by norm_num)
  have hlt : ∀ k ∈ t.bounds, k < 2 ^ 64 := by
    intro k hk
    rw [hbounds] at hk
    obtain ⟨l, hl, rfl⟩ := List.mem_map.mp hk
    exact hmax l hl
  refine ⟨_, root, _, generateLeaves_withLengths hord hmax, hroot,
    resolveProofs_eq_ok hbuilds hpos ⟨0, []⟩, ?_, ?_⟩
  · rw [length_map, RouteTree.length_routes, hbounds, length_map]
  intro path target r hinj
  constructor
  · intro h
    obtain ⟨i, dataHash, high, hi, hget, hn, hzero, hrange, hr⟩ :=
      leaf_of_accepted hinj hbuilds ht hord' hlt h
    have hproof := congrArg (Option.map fun r : Route Digest Digest ℕ =>
      (⟨r.bound - 1, encodeRoute r⟩ : Proof)) hget
    exact ⟨i, dataHash, high, _, hi, by rw [getElem?_map]; exact hproof, hn, hzero, hrange, hr⟩
  · rintro ⟨i, dataHash, high, proof, hi, hproof, ⟨n, hn⟩, hzero, hrange, rfl⟩
    rw [getElem?_map, Option.map_eq_some_iff] at hproof
    obtain ⟨route, hroute, rfl⟩ := hproof
    exact accepted_of_leaf hbuilds ht hord hlt hi hroute hn hzero hrange

/-! ### A tree of two chunks -/

/-- The leaves of the chunks `[1, 2]` and `[3]`. -/
def twoLeaves : List (Digest × ℕ) :=
  [(Tree.Sha256.hash [1, 2], 2), (Tree.Sha256.hash [3], 3)]

/-- Their tree. -/
def twoRoot : Node :=
  hashBranch Tree.Sha256.hash (leafNode Tree.Sha256.hash (Tree.Sha256.hash [1, 2]) 0 2)
    (leafNode Tree.Sha256.hash (Tree.Sha256.hash [3]) 2 3)

theorem twoStrings_injOn :
    HashInjOn Tree.Sha256.hash (twoRoot.strings Tree.Sha256.hash
      ++ pathStrings Tree.Sha256.hash (pathOver firstLeaf 7)) := by
  -- the pivot is the first leaf's bound, so its note is listed twice
  have hinj : HashInjOn Tree.Sha256.hash ((twoRoot.strings Tree.Sha256.hash).eraseIdx 6) := by
    have htags : ((twoRoot.strings Tree.Sha256.hash).eraseIdx 6).map
        (fun x => fromBe ((Tree.Sha256.hash x).bytes.take 2))
        = [55981, 47799, 3325, 37479, 19299, 30373, 7501, 51522, 55572] := by
      decide +kernel
    apply HashInjOn.of_nodup fun d => fromBe (d.bytes.take 2)
    rw [htags]
    decide
  exact hinj.mono (by decide +kernel)

theorem data_path_accepted_iff_two_chunks :
    ∃ nodes, generateLeavesFromChunks Tree.Sha256.hash [[1, 2], [3]] = .ok nodes ∧
      generateDataRoot Tree.Sha256.hash nodes = .ok twoRoot ∧
      validatePath Tree.Sha256.hash twoRoot.id (pathOver firstLeaf 7) 2
        = .ok ⟨Tree.Sha256.hash [3], 2, 3, true⟩ := by
  obtain ⟨nodes, root, proofs, hnodes, hroot, hproofs, -, hiff⟩ :=
    data_path_accepted_iff Tree.Sha256.hash twoLeaves (by simp [twoLeaves])
      (by simp [twoLeaves]) (by simp [twoLeaves])
  have hnodes' : generateLeavesFromChunks Tree.Sha256.hash [[1, 2], [3]] = .ok _ := rfl
  cases hnodes'.symm.trans hnodes
  have hroot' : generateDataRoot Tree.Sha256.hash (leafNodes Tree.Sha256.hash 0 twoLeaves)
      = .ok twoRoot := rfl
  cases hroot'.symm.trans hroot
  refine ⟨_, rfl, rfl, (hiff (pathOver firstLeaf 7) 2 _ twoStrings_injOn).mpr ?_⟩
  have hproofs' : resolveProofs twoRoot ⟨0, []⟩ = .ok _ := rfl
  cases hproofs'.symm.trans hproofs
  have hlayout : ensureProofLayout (pathOver firstLeaf 7) = .ok 96 := by decide +kernel
  exact ⟨1, _, 3, _, rfl, rfl, ⟨96, hlayout⟩, by decide +kernel, .inl ⟨by decide, by decide⟩, rfl⟩

end Irys.DataPath
