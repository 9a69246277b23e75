import LedgerGate.Merkle
import LedgerGate.Proofs.Decimal.Value
import LedgerGate.Proofs.Log.Lines
import LedgerGate.Proofs.Table

/-!
# Paths to a Merkle root

Every digest of a tree is that of a message, and a step of a proof digests one message more.
The steps that are collected for a leaf lead to the root again and digest nothing that the tree
did not digest (`climb_pathFrom`). So every account has a proof that verifies, and no other account
has one (`build?_complete`).
-/

namespace LedgerGate

theorem Text.Hex.encode_injective : Function.Injective encode := fun bytes bytes' h => by
  have hbytes := decode?_encode bytes
  rw [h, decode?_encode] at hbytes
  exact (Option.some.inj hbytes).symm

namespace Merkle

@[simp]
theorem hashOfText?_encode {h : Hash} (hlen : h.length = 32) :
    hashOfText? (String.ofList (Text.Hex.encode h)) = some h := by
  simp [hashOfText?, Text.Hex.decode?_encode, hlen]

theorem length_of_hashOfText? {s : String} {h : Hash} (hs : hashOfText? s = some h) :
    h.length = 32 := by
  unfold hashOfText? at hs
  split at hs
  · next bytes _ =>
    split at hs
    · next hlen => exact Option.some.inj hs ▸ hlen
    · exact absurd hs nofun
  · exact absurd hs nofun

@[simp]
theorem length_zero : zero.length = 32 := List.length_replicate

/-! ## Messages -/

/-- What is digested for an inner node. -/
def nodeMessage (left right : Hash) : List UInt8 := 1 :: left ++ right

/-- What is digested for the nodes above a level. -/
def levelMessages : List Hash → List (List UInt8)
  | [] => []
  | [single] => [nodeMessage single zero]
  | left :: right :: r => nodeMessage left right :: levelMessages r

/-- What a step digests, from a node and its sibling. -/
def Step.message (s : Step) (sibling current : Hash) : List UInt8 :=
  if s.siblingOnLeft then nodeMessage sibling current else nodeMessage current sibling

section

variable (H : List UInt8 → Hash)

/-- What is digested between a level and the root. -/
def messagesAbove : List Hash → List (List UInt8)
  | [] => []
  | [_] => []
  | a :: b :: r => levelMessages (a :: b :: r) ++ messagesAbove (nextLevel H (a :: b :: r))
  termination_by level => level.length
  decreasing_by
    rw [length_nextLevel]
    simp only [List.length_cons]
    omega

/-- What is digested for the root of balances. -/
def messages (b : Balances) : List (List UInt8) :=
  b.entries.map (fun p => leafMessage p.1 p.2) ++ messagesAbove H (leaves H b)

/-- What steps digest on their way up from a node. -/
def climbMessages (current : Hash) : List Step → List (List UInt8)
  | [] => []
  | s :: r =>
    match hashOfText? s.sibling with
    | none => []
    | some sibling =>
      s.message sibling current :: climbMessages (H (s.message sibling current)) r

/-- What is digested to verify a proof. -/
def Proof.messages (p : Proof) : List (List UInt8) :=
  leafMessage p.account p.balance :: climbMessages H (leaf H p.account p.balance) p.path

variable {H}

theorem nextLevel_eq_map (level : List Hash) : nextLevel H level = (levelMessages level).map H := by
  fun_induction nextLevel H level with
  | case1 => rfl
  | case2 => rfl
  | case3 left right r ih => rw [ih]; rfl

theorem climb_cons (current : Hash) (s : Step) (r : List Step) :
    climb H current (s :: r) =
      (hashOfText? s.sibling).bind fun sibling => climb H (H (s.message sibling current)) r := by
  rw [climb]
  cases hashOfText? s.sibling with
  | none => rfl
  | some sibling =>
    cases hside : s.siblingOnLeft <;> simp [hside, Step.message, node, nodeMessage]

/-! ## From a leaf to the root -/

/-- The message of each pair of a level, the last node being paired with the zero digest. -/
theorem getElem?_levelMessages (level : List Hash) (k : Nat) (hk : 2 * k < level.length) :
    (levelMessages level)[k]? =
      some (nodeMessage (level.getD (2 * k) zero) (level.getD (2 * k + 1) zero)) := by
  induction level using levelMessages.induct generalizing k with
  | case1 => simp at hk
  | case2 single =>
    obtain rfl : k = 0 := by simp at hk; omega
    rfl
  | case3 left right r ih =>
    cases k with
    | zero => rfl
    | succ k =>
      have hk' : 2 * k < r.length := by simp only [List.length_cons] at hk; omega
      have hdouble : 2 * (k + 1) = 2 * k + 1 + 1 := by omega
      rw [levelMessages, List.getElem?_cons_succ, ih k hk', hdouble]
      simp only [List.getD_cons_succ]

/-- The step beside a node digests what was digested for the node above. -/
theorem exists_stepAt {level : List Hash} (hlen : ∀ h ∈ level, h.length = 32) {index : Nat}
    {current : Hash} (hat : level[index]? = some current) : ∃ sibling,
      hashOfText? (stepAt level index).sibling = some sibling ∧
      (levelMessages level)[index / 2]? = some ((stepAt level index).message sibling current) := by
  have hlt : index < level.length := (List.getElem?_eq_some_iff.mp hat).1
  have hcurrent : level.getD index zero = current := by simp [hat]
  have hsibling : ∀ i, (level.getD i zero).length = 32 := fun i => by
    rw [List.getD_eq_getElem?_getD]
    cases hi : level[i]? with
    | none => exact length_zero
    | some h => exact hlen h (List.mem_of_getElem? hi)
  have hpair := getElem?_levelMessages level (index / 2) (by omega)
  unfold stepAt
  split
  · next heven =>
    refine ⟨_, hashOfText?_encode (hsibling (index + 1)), ?_⟩
    rw [hpair, show 2 * (index / 2) = index by omega, hcurrent]
    rfl
  · next hodd =>
    refine ⟨_, hashOfText?_encode (hsibling (index - 1)), ?_⟩
    rw [hpair, show 2 * (index / 2) + 1 = index by omega, show 2 * (index / 2) = index - 1 by omega,
      hcurrent]
    rfl

theorem length_of_mem_nextLevel (hH : ∀ m, (H m).length = 32) {level : List Hash} {h : Hash}
    (hmem : h ∈ nextLevel H level) : h.length = 32 := by
  rw [nextLevel_eq_map] at hmem
  obtain ⟨m, -, rfl⟩ := List.mem_map.mp hmem
  exact hH m

/-- The steps from a node lead to the root, and what they digest was digested for it. -/
theorem climb_pathFrom (hH : ∀ m, (H m).length = 32) {level : List Hash}
    (hlen : ∀ h ∈ level, h.length = 32) {index : Nat} {current : Hash}
    (hat : level[index]? = some current) :
    climb H current (pathFrom H level index) = some (rootOf H level) ∧
      climbMessages H current (pathFrom H level index) ⊆ messagesAbove H level := by
  induction level using rootOf.induct H generalizing index current with
  | case1 => simp at hat
  | case2 root =>
    obtain ⟨rfl, rfl⟩ : index = 0 ∧ root = current := by
      rw [List.getElem?_singleton] at hat
      split at hat
      · next h => exact ⟨h, Option.some.inj hat⟩
      · exact absurd hat nofun
    rw [pathFrom, rootOf]
    exact ⟨rfl, List.nil_subset _⟩
  | case3 a b r ih =>
    obtain ⟨sibling, hsibling, hmessage⟩ := exists_stepAt hlen hat
    have habove : (nextLevel H (a :: b :: r))[index / 2]? =
        some (H ((stepAt (a :: b :: r) index).message sibling current)) := by
      rw [nextLevel_eq_map, List.getElem?_map, hmessage, Option.map_some]
    obtain ⟨hclimb, hmessages⟩ := ih (fun h => length_of_mem_nextLevel hH) habove
    rw [pathFrom, rootOf, messagesAbove, climb_cons, hsibling, Option.bind_some]
    refine ⟨hclimb, ?_⟩
    simp only [climbMessages, hsibling]
    exact List.cons_subset.mpr ⟨List.mem_append_left _ (List.mem_of_getElem? hmessage),
      List.Subset.trans hmessages (List.subset_append_right _ _)⟩

/-! ## Proofs that are built -/

theorem findIdx?_keys {b : Balances} {account : String} {balance : Decimal}
    (h : b.get? account = some balance) : ∃ index,
      b.keys.findIdx? (· = account) = some index ∧
      b.entries[index]? = some (account, balance) := by
  have hmem : (account, balance) ∈ b.entries := Table.get?_eq_some_iff.mp h
  obtain ⟨index, hindex⟩ : ∃ index, b.keys.findIdx? (· = account) = some index := by
    refine Option.isSome_iff_exists.mp ?_
    rw [List.findIdx?_isSome, List.any_eq_true]
    exact ⟨account, List.mem_map.mpr ⟨_, hmem, rfl⟩, by simp⟩
  obtain ⟨hlt, hkey, -⟩ := List.findIdx?_eq_some_iff_getElem.mp hindex
  simp only [Table.keys, List.length_map, List.getElem_map, decide_eq_true_eq] at hlt hkey
  have hentry : (account, b.entries[index].2) ∈ b.entries := hkey ▸ List.getElem_mem hlt
  have hbalance : b.entries[index].2 = balance :=
    Option.some.inj ((Table.get?_eq_some_iff.mpr hentry).symm.trans h)
  refine ⟨index, hindex, List.getElem?_eq_some_iff.mpr ⟨hlt, Prod.ext hkey hbalance⟩⟩

/-- The proof of an account's balance: it leads to the root, and what it digests was digested for
the root. -/
theorem exists_build? (hH : ∀ m, (H m).length = 32) {b : Balances} {account : String}
    {balance : Decimal} (h : b.get? account = some balance) : ∃ path,
      Proof.build? H b account = some ⟨account, balance, path⟩ ∧
      climb H (leaf H account balance) path = some (root H b) ∧
      Proof.messages H ⟨account, balance, path⟩ ⊆ messages H b := by
  obtain ⟨index, hindex, hentry⟩ := findIdx?_keys h
  have hleaf : (leaves H b)[index]? = some (leaf H account balance) := by
    rw [leaves, List.getElem?_map, hentry, Option.map_some]
  have hlen : ∀ h ∈ leaves H b, h.length = 32 := by
    intro h hmem
    obtain ⟨p, -, rfl⟩ := List.mem_map.mp hmem
    exact hH _
  obtain ⟨hclimb, hmessages⟩ := climb_pathFrom hH hlen hleaf
  refine ⟨pathFrom H (leaves H b) index, by rw [Proof.build?, hindex, h], hclimb, ?_⟩
  exact List.cons_subset.mpr ⟨List.mem_append_left _
    (List.mem_map.mpr ⟨_, List.mem_of_getElem? hentry, rfl⟩),
    List.Subset.trans hmessages (List.subset_append_right _ _)⟩

theorem verifies_of_climb {p : Proof} {b : Balances}
    (h : climb H (leaf H p.account p.balance) p.path = some (root H b)) :
    p.verifies H (rootText H b) = true := by
  simp [Proof.verifies, h, rootText]

/-- A proof that is built is that of the account's balance, and it verifies. -/
theorem verifies_of_build? (hH : ∀ m, (H m).length = 32) {b : Balances} {account : String}
    {p : Proof} (h : Proof.build? H b account = some p) :
    p.account = account ∧ b.get? account = some p.balance ∧
      p.verifies H (rootText H b) = true := by
  cases hbalance : b.get? account with
  | none =>
    rw [Proof.build?, hbalance] at h
    cases hindex : b.keys.findIdx? (· = account) <;> simp [hindex] at h
  | some balance =>
    obtain ⟨path, hbuild, hclimb, -⟩ := exists_build? hH hbalance
    obtain rfl := Option.some.inj (hbuild.symm.trans h)
    exact ⟨rfl, rfl, verifies_of_climb hclimb⟩

/-- Exactly the accounts that there are have a proof. -/
theorem isSome_build? (hH : ∀ m, (H m).length = 32) (b : Balances) (account : String) :
    (Proof.build? H b account).isSome = b.contains account := by
  cases hbalance : b.get? account with
  | none =>
    rw [Proof.build?, Table.contains, hbalance]
    cases b.keys.findIdx? (· = account) <;> rfl
  | some balance =>
    obtain ⟨path, hbuild, -⟩ := exists_build? hH hbalance
    simp [hbuild, Table.contains, hbalance]

/-- A leaf depends on the value of the balance and not on how it is written. -/
theorem leaf_eq_of_value_eq {account : String} {d d' : Decimal} (h : d.value = d'.value) :
    leaf H account d = leaf H account d' := by
  rw [leaf, leaf, leafMessage, leafMessage, Decimal.normalize_eq_of_value_eq h]

theorem verifies_of_value_eq {account root : String} {d d' : Decimal} {path : List Step}
    (h : d.value = d'.value) :
    Proof.verifies H ⟨account, d, path⟩ root = Proof.verifies H ⟨account, d', path⟩ root := by
  rw [Proof.verifies, Proof.verifies, leaf_eq_of_value_eq h]

end

/-- Exactly the accounts of the balances have a proof. It is that of the account's balance, and it
verifies, also with the balance written in another way. -/
theorem build?_complete (b : Balances) (account : String) :
    ((∃ p, Proof.build? Sha256.digest b account = some p) ↔ account ∈ b.keys) ∧
    ∀ p, Proof.build? Sha256.digest b account = some p →
      p.account = account ∧ b.get? account = some p.balance ∧
      p.verifies Sha256.digest (rootText Sha256.digest b) = true ∧
      ∀ d : Decimal, d.value = p.balance.value →
        Proof.verifies Sha256.digest ⟨p.account, d, p.path⟩ (rootText Sha256.digest b) = true := by
  constructor
  · rw [← Option.isSome_iff_exists, isSome_build? Sha256.length_digest, Table.mem_keys_iff]
  · intro p hp
    obtain ⟨haccount, hbalance, hverifies⟩ := verifies_of_build? Sha256.length_digest hp
    refine ⟨haccount, hbalance, hverifies, fun d hd => ?_⟩
    rwa [verifies_of_value_eq hd]

/-- Balances whose last account has no partner on two levels of the tree. -/
def fiveBalances : Balances :=
  .ofList [("a", .ofInt64 10), ("b", .ofInt64 20), ("c", .ofInt64 30), ("d", .ofInt64 40),
    ("e", .ofInt64 50)]

/-- The last of five accounts has a proof, in which fifty may be written as fifty point zero. -/
theorem build?_complete_five : ∃ p,
    Proof.build? Sha256.digest fiveBalances "e" = some p ∧ p.balance = .ofInt64 50 ∧
    Proof.verifies Sha256.digest ⟨"e", ⟨500, 1, by decide, by decide⟩, p.path⟩
      (rootText Sha256.digest fiveBalances) = true := by
  obtain ⟨hbuild, hproof⟩ := build?_complete fiveBalances "e"
  obtain ⟨p, hp⟩ := hbuild.mpr (by decide +kernel)
  obtain ⟨haccount, hbalance, -, hrespelled⟩ := hproof p hp
  have hfifty : fiveBalances.get? "e" = some (.ofInt64 50) := by decide +kernel
  have hp50 : p.balance = .ofInt64 50 := Option.some.inj (hbalance.symm.trans hfifty)
  refine ⟨p, hp, hp50, ?_⟩
  rw [← haccount]
  exact hrespelled _ (by rw [hp50]; decide +kernel)

end Merkle
end LedgerGate
