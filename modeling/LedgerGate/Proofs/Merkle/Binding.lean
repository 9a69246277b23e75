import LedgerGate.Proofs.Decimal.Text
import LedgerGate.Proofs.Decimal.Value
import LedgerGate.Proofs.Merkle.Paths

/-!
# What a Merkle root commits to

A leaf is not digested like an inner node, and both messages can be taken apart again. So where
digests tell apart the messages that were digested, and none of them has the zero digest, a climb
that ends at a node of the tree has passed one of the two nodes below it, and one that ends at a
leaf has not moved (`Vouches`). A proof that verifies is then about an account with that balance,
whatever its steps are, and a root determines the balances (`root_binds`).
-/

namespace LedgerGate

/-! ## Leaves -/

namespace Decimal

/-- The text of a decimal has a sign, a point and up to thirty-nine digits. -/
theorem length_chars_le (d : Decimal) : d.chars.length ≤ 41 := by
  have hdigits : (digitsOf d.mantissa.natAbs).length ≤ 39 := by
    have hfits := d.mantissa_fits
    unfold Int128.Fits Int128.bound at hfits
    refine (Nat.length_toDigits_le_iff (by decide) (by decide)).mpr ?_
    norm_num
    omega
  have hwide := d.length_wideDigits
  have hwhole := d.length_wholeDigits
  have hfraction := d.length_fractionDigits
  have hscale := d.scale_le
  have hpoint : d.pointAndFraction.length ≤ 1 + d.scale := by
    unfold pointAndFraction
    split
    · simp
    · rw [List.length_cons, hfraction, Nat.add_comm]
  rw [chars, pointed_digits]
  split <;> simp only [List.length_cons, List.length_append] <;> omega

end Decimal

theorem Sha256.length_bigEndian (count n : Nat) : (bigEndian count n).length = count := by
  simp [bigEndian]

/-- The last byte of a number is its remainder. -/
theorem Sha256.mod_eq_of_bigEndian_eq {m n : Nat} (h : bigEndian 8 m = bigEndian 8 n) :
    m % 256 = n % 256 := by
  have hlast := congrArg (fun bytes => (bytes.getD 7 0).toNat) h
  simpa [bigEndian, twoTo] using hlast

namespace Merkle

/-- A leaf determines the account and the value of its balance. -/
theorem eq_of_leafMessage_eq {account account' : String} {balance balance' : Decimal}
    (h : leafMessage account balance = leafMessage account' balance') :
    account = account' ∧ balance.value = balance'.value := by
  rw [leafMessage, leafMessage, List.append_assoc, List.append_assoc] at h
  obtain ⟨hhead, hrest⟩ := List.append_inj h (by simp [Sha256.length_bigEndian])
  have hmod := Sha256.mod_eq_of_bigEndian_eq (List.cons.inj hhead).2
  -- The length is digested modulo a power of two, but the balance is too short to make up
  -- for a difference.
  have hshort : ∀ d : Decimal, (Text.Utf8.encode d.text).length ≤ 164 := fun d => by
    have hchars := d.length_chars_le
    have hbytes := (Text.Utf8.length_encode_bounds d.text).2
    rw [Decimal.text, String.toList_ofList] at hbytes
    exact hbytes.trans (by omega)
  have hlength := congrArg List.length hrest
  have hbalance := hshort balance.normalize
  have hbalance' := hshort balance'.normalize
  simp only [List.length_append] at hlength
  obtain ⟨haccount, htext⟩ := List.append_inj hrest (by omega)
  have hnormal := Decimal.text_injective (Text.Utf8.encode_injective htext)
  refine ⟨Text.Utf8.encode_injective haccount, ?_⟩
  rw [← Decimal.value_normalize, hnormal, Decimal.value_normalize]

theorem leafMessage_ne_nodeMessage (account : String) (balance : Decimal) (left right : Hash) :
    leafMessage account balance ≠ nodeMessage left right := by
  intro h
  rw [leafMessage, nodeMessage, List.append_assoc, List.cons_append, List.cons_append] at h
  exact absurd (List.cons.inj h).1 (by decide)

theorem eq_of_nodeMessage_eq {left right left' right' : Hash} (hlength : left.length = left'.length)
    (h : nodeMessage left right = nodeMessage left' right') : left = left' ∧ right = right' :=
  List.append_inj (List.cons.inj h).2 hlength

/-! ## Climbing -/

section

variable {H : List UInt8 → Hash}

theorem climb_concat {current reached sibling : Hash} {init : List Step} {s : Step}
    (hinit : climb H current init = some reached) (hs : hashOfText? s.sibling = some sibling) :
    climb H current (init ++ [s]) = some (H (s.message sibling reached)) ∧
      climbMessages H current (init ++ [s]) =
        climbMessages H current init ++ [s.message sibling reached] := by
  induction init generalizing current with
  | nil =>
    obtain rfl := Option.some.inj hinit
    simp [climb_cons, climbMessages, hs, climb]
  | cons t r ih =>
    rw [climb_cons] at hinit
    obtain ⟨other, hother, hinit⟩ := Option.bind_eq_some_iff.mp hinit
    obtain ⟨hclimb, hmessages⟩ := ih hinit
    simp [climb_cons, climbMessages, hother, hclimb, hmessages]

theorem exists_climb_init {current reached : Hash} {init : List Step} {s : Step}
    (h : climb H current (init ++ [s]) = some reached) : ∃ before sibling,
      climb H current init = some before ∧ hashOfText? s.sibling = some sibling := by
  induction init generalizing current with
  | nil =>
    rw [List.nil_append, climb_cons] at h
    obtain ⟨sibling, hs, -⟩ := Option.bind_eq_some_iff.mp h
    exact ⟨current, sibling, rfl, hs⟩
  | cons t r ih =>
    rw [List.cons_append, climb_cons] at h
    obtain ⟨other, hother, h⟩ := Option.bind_eq_some_iff.mp h
    obtain ⟨before, sibling, hbefore, hs⟩ := ih h
    exact ⟨before, sibling, by rw [climb_cons, hother]; exact hbefore, hs⟩

/-- The last message that is digested on the way of a proof: that of its leaf, or that of a step
from a node that the proof without this step reaches. -/
theorem climb_cases {p : Proof} {reached : Hash}
    (h : climb H (leaf H p.account p.balance) p.path = some reached) :
    (p.path = [] ∧ reached = H (leafMessage p.account p.balance)) ∨
      ∃ (init : List Step) (s : Step) (sibling before : Hash),
        sibling.length = 32 ∧
        climb H (leaf H p.account p.balance) init = some before ∧
        reached = H (s.message sibling before) ∧
        Proof.messages H p =
          Proof.messages H ⟨p.account, p.balance, init⟩ ++ [s.message sibling before] := by
  rcases List.eq_nil_or_concat p.path with hnil | ⟨init, s, hpath⟩
  · rw [hnil] at h
    exact .inl ⟨hnil, (Option.some.inj h).symm⟩
  · rw [hpath, List.concat_eq_append] at h
    obtain ⟨before, sibling, hbefore, hs⟩ := exists_climb_init h
    obtain ⟨hclimb, hmessages⟩ := climb_concat hbefore hs
    refine .inr ⟨init, s, sibling, before, length_of_hashOfText? hs, hbefore,
      Option.some.inj (h.symm.trans hclimb), ?_⟩
    rw [Proof.messages, hpath, List.concat_eq_append, hmessages]
    rfl

theorem exists_message_of_climb {p : Proof} {reached : Hash}
    (h : climb H (leaf H p.account p.balance) p.path = some reached) :
    ∃ m ∈ Proof.messages H p, reached = H m := by
  rcases climb_cases h with ⟨-, hreached⟩ | ⟨init, s, sibling, before, -, -, hreached, hmessages⟩
  · exact ⟨_, List.mem_cons_self, hreached⟩
  · exact ⟨_, hmessages ▸ List.mem_append_right _ (List.mem_singleton_self _), hreached⟩

end

/-! ## Digests that bind -/

/-- Whether a digest function tells messages apart and gives none of them the zero digest. -/
structure IsBinding (H : List UInt8 → Hash) (ms : List (List UInt8)) : Prop where
  injective : ∀ m ∈ ms, ∀ m' ∈ ms, H m = H m' → m = m'
  ne_zero : ∀ m ∈ ms, H m ≠ zero

theorem isBinding_of_nodup {H : List UInt8 → Hash} {ms : List (List UInt8)}
    (h : (zero :: ms.map H).Nodup) : IsBinding H ms := by
  obtain ⟨hzero, hnodup⟩ := List.nodup_cons.mp h
  refine ⟨fun m hm m' hm' heq => List.inj_on_of_nodup_map hnodup hm hm' heq, fun m hm heq => ?_⟩
  exact hzero (heq ▸ List.mem_map_of_mem hm)

theorem IsBinding.mono {H : List UInt8 → Hash} {ms ms' : List (List UInt8)} (h : IsBinding H ms)
    (hsub : ms' ⊆ ms) : IsBinding H ms' :=
  ⟨fun m hm m' hm' => h.injective m (hsub hm) m' (hsub hm'), fun m hm => h.ne_zero m (hsub hm)⟩

/-- Whether a proof that reaches a digest, all its messages being among some, is about an
account that has the balance it names. -/
def Vouches (H : List UInt8 → Hash) (ms : List (List UInt8)) (b : Balances) (h : Hash) : Prop :=
  ∀ p : Proof, Proof.messages H p ⊆ ms → climb H (leaf H p.account p.balance) p.path = some h →
    ∃ d, b.get? p.account = some d ∧ d.value = p.balance.value

section

variable {H : List UInt8 → Hash} {ms : List (List UInt8)} {b : Balances}

theorem vouches_zero (hbind : IsBinding H ms) : Vouches H ms b zero := by
  intro p hmessages hclimb
  obtain ⟨m, hm, hzero⟩ := exists_message_of_climb hclimb
  exact absurd hzero.symm (hbind.ne_zero m (hmessages hm))

theorem vouches_leaf (hbind : IsBinding H ms) {account : String} {balance : Decimal}
    (hm : leafMessage account balance ∈ ms) (hb : b.get? account = some balance) :
    Vouches H ms b (leaf H account balance) := by
  intro p hmessages hclimb
  rcases climb_cases hclimb with ⟨-, hreached⟩ |
    ⟨init, s, sibling, before, -, -, hreached, hinit⟩
  · have hleaf := hbind.injective _ hm _ (hmessages List.mem_cons_self) hreached
    obtain ⟨rfl, hvalue⟩ := eq_of_leafMessage_eq hleaf
    exact ⟨balance, hb, hvalue⟩
  · have hlast : s.message sibling before ∈ ms :=
      hmessages (hinit ▸ List.mem_append_right _ (List.mem_singleton_self _))
    have hleaf := hbind.injective _ hm _ hlast hreached
    unfold Step.message at hleaf
    split at hleaf <;> exact absurd hleaf (leafMessage_ne_nodeMessage _ _ _ _)

/-- What reaches a node has passed one of the two below it. -/
theorem vouches_node (hbind : IsBinding H ms) (hH : ∀ m, (H m).length = 32) {left right : Hash}
    (hm : nodeMessage left right ∈ ms) (hlength : left.length = 32)
    (hleft : Vouches H ms b left) (hright : Vouches H ms b right) :
    Vouches H ms b (node H left right) := by
  intro p hmessages hclimb
  rcases climb_cases hclimb with ⟨-, hreached⟩ |
    ⟨init, s, sibling, before, hsibling, hbefore, hreached, hinit⟩
  · have hnode := hbind.injective _ hm _ (hmessages List.mem_cons_self) hreached
    exact absurd hnode.symm (leafMessage_ne_nodeMessage _ _ _ _)
  · rw [hinit, List.append_subset] at hmessages
    obtain ⟨hmessages, hlast⟩ := hmessages
    have hnode := hbind.injective _ hm _ (hlast (List.mem_singleton_self _)) hreached
    have hlength' : before.length = 32 := by
      obtain ⟨m, -, rfl⟩ := exists_message_of_climb (p := ⟨p.account, p.balance, init⟩) hbefore
      exact hH m
    unfold Step.message at hnode
    split at hnode
    · obtain ⟨-, rfl⟩ := eq_of_nodeMessage_eq (hlength.trans hsibling.symm) hnode
      exact hright ⟨p.account, p.balance, init⟩ hmessages hbefore
    · obtain ⟨rfl, -⟩ := eq_of_nodeMessage_eq (hlength.trans hlength'.symm) hnode
      exact hleft ⟨p.account, p.balance, init⟩ hmessages hbefore

theorem vouches_nextLevel (hbind : IsBinding H ms) (hH : ∀ m, (H m).length = 32)
    {level : List Hash} (hm : levelMessages level ⊆ ms) (hlen : ∀ h ∈ level, h.length = 32)
    (hlevel : ∀ h ∈ level, Vouches H ms b h) : ∀ h ∈ nextLevel H level, Vouches H ms b h := by
  induction level using levelMessages.induct with
  | case1 =>
    intro h hh
    exact absurd hh List.not_mem_nil
  | case2 single =>
    rw [nextLevel, List.forall_mem_singleton]
    have hsingle : single ∈ [single] := List.mem_singleton_self single
    exact vouches_node hbind hH (hm (List.mem_singleton_self _)) (hlen single hsingle)
      (hlevel single hsingle) (vouches_zero hbind)
  | case3 left right r ih =>
    obtain ⟨hleft, hright, hr⟩ : Vouches H ms b left ∧ Vouches H ms b right ∧
        ∀ h ∈ r, Vouches H ms b h := by simpa using hlevel
    obtain ⟨hnode, hm⟩ := List.cons_subset.mp hm
    rw [nextLevel, List.forall_mem_cons]
    refine ⟨vouches_node hbind hH hnode (hlen _ List.mem_cons_self) hleft hright, ?_⟩
    exact ih hm (fun h hh => hlen h (by simp [hh])) hr

theorem vouches_rootOf (hbind : IsBinding H ms) (hH : ∀ m, (H m).length = 32)
    {level : List Hash} (hm : messagesAbove H level ⊆ ms) (hlen : ∀ h ∈ level, h.length = 32)
    (hlevel : ∀ h ∈ level, Vouches H ms b h) : Vouches H ms b (rootOf H level) := by
  induction level using rootOf.induct H with
  | case1 =>
    rw [rootOf]
    exact vouches_zero hbind
  | case2 root =>
    rw [rootOf]
    exact hlevel root (List.mem_singleton_self _)
  | case3 a b r ih =>
    rw [messagesAbove, List.append_subset] at hm
    rw [rootOf]
    exact ih hm.2 (fun h => length_of_mem_nextLevel hH)
      (vouches_nextLevel hbind hH hm.1 hlen hlevel)

theorem vouches_root (hbind : IsBinding H ms) (hH : ∀ m, (H m).length = 32)
    (hm : messages H b ⊆ ms) : Vouches H ms b (root H b) := by
  rw [messages, List.append_subset] at hm
  refine vouches_rootOf hbind hH hm.2 ?_ ?_
  · intro h hmem
    obtain ⟨p, -, rfl⟩ := List.mem_map.mp hmem
    exact hH _
  · intro h hmem
    obtain ⟨p, hp, rfl⟩ := List.mem_map.mp hmem
    exact vouches_leaf hbind (hm.1 (List.mem_map.mpr ⟨p, hp, rfl⟩)) (Table.get?_eq_some_iff.mpr hp)

theorem climb_of_verifies {p : Proof} (h : p.verifies H (rootText H b) = true) :
    climb H (leaf H p.account p.balance) p.path = some (root H b) := by
  unfold Proof.verifies at h
  split at h
  · next reached hreached =>
    have htext := String.ofList_injective (of_decide_eq_true h)
    rw [hreached, Text.Hex.encode_injective htext]
  · exact absurd h nofun

/-- Where digests bind the messages of balances and of a proof, a proof that verifies is about an
account that has the balance it names. -/
theorem exists_of_verifies (hH : ∀ m, (H m).length = 32) {p : Proof}
    (hbind : IsBinding H (messages H b ++ Proof.messages H p))
    (h : p.verifies H (rootText H b) = true) :
    ∃ d, b.get? p.account = some d ∧ d.value = p.balance.value :=
  vouches_root hbind hH (List.subset_append_left _ _) p (List.subset_append_right _ _)
    (climb_of_verifies h)

/-- Balances under one root have the accounts of each other, at equal values. -/
theorem exists_of_rootText_eq (hH : ∀ m, (H m).length = 32) {b' : Balances}
    (hbind : IsBinding H (messages H b ++ messages H b')) (hroot : rootText H b = rootText H b')
    {account : String} {balance : Decimal} (hb : b.get? account = some balance) :
    ∃ d, b'.get? account = some d ∧ d.value = balance.value := by
  obtain ⟨path, -, hclimb, hmessages⟩ := exists_build? hH hb
  have hverifies := verifies_of_climb (p := ⟨account, balance, path⟩) hclimb
  rw [hroot] at hverifies
  refine exists_of_verifies hH (hbind.mono ?_) hverifies
  exact List.append_subset.mpr ⟨List.subset_append_right _ _,
    List.Subset.trans hmessages (List.subset_append_left _ _)⟩

end

/-- Where digests tell apart what is digested and none is the zero digest, a proof of any account,
balance and path that verifies against the root of balances is about an account that has that
balance, and balances with equal roots have equal accounts with equal balances. -/
theorem root_binds (H : List UInt8 → Hash) (hH : ∀ m, (H m).length = 32) :
    (∀ (b : Balances) (p : Proof), IsBinding H (messages H b ++ Proof.messages H p) →
      p.verifies H (rootText H b) = true →
      ∃ d, b.get? p.account = some d ∧ d.value = p.balance.value) ∧
    ∀ b b' : Balances, IsBinding H (messages H b ++ messages H b') →
      rootText H b = rootText H b' →
      ∀ account, (b.get? account).map Decimal.value = (b'.get? account).map Decimal.value := by
  refine ⟨fun b p hbind => exists_of_verifies hH hbind, fun b b' hbind hroot account => ?_⟩
  have hbind' : IsBinding H (messages H b' ++ messages H b) :=
    hbind.mono (List.append_subset.mpr
      ⟨List.subset_append_right _ _, List.subset_append_left _ _⟩)
  cases hb : b.get? account with
  | some balance =>
    obtain ⟨d, hd, hvalue⟩ := exists_of_rootText_eq hH hbind hroot hb
    rw [hd, Option.map_some, Option.map_some, hvalue]
  | none =>
    cases hb' : b'.get? account with
    | none => rfl
    | some balance =>
      obtain ⟨d, hd, -⟩ := exists_of_rootText_eq hH hbind' hroot.symm hb'
      rw [hb] at hd
      exact absurd hd nofun

/-- A hundred with alice, and a balance with bob. -/
def pair (balance : Decimal) : Balances :=
  ⟨[("alice", .ofInt64 100), ("bob", balance)],
    List.pairwise_pair.mpr (show "alice" < "bob" by decide)⟩

/-- The leaf of alice and that of bob, and their node. -/
def pairMessages (balance : Decimal) : List (List UInt8) :=
  [leafMessage "alice" (.ofInt64 100), leafMessage "bob" balance,
    nodeMessage (Sha256.digest (leafMessage "alice" (.ofInt64 100)))
      (Sha256.digest (leafMessage "bob" balance))]

theorem messages_pair (balance : Decimal) :
    messages Sha256.digest (pair balance) = pairMessages balance := by
  simp only [messages, pair, leaves, List.map_cons, List.map_nil, messagesAbove, nextLevel]
  rfl

/-- Twenty and twenty point zero are one balance under one root, and its proof verifies. -/
theorem root_binds_pair :
    let twenty : Decimal := .ofInt64 20
    let rescaled : Decimal := ⟨200, 1, by decide, by decide⟩
    (∀ m, (Sha256.digest m).length = 32) ∧
    (∃ p : Proof, p.account = "bob" ∧ p.balance = rescaled ∧
      IsBinding Sha256.digest
        (messages Sha256.digest (pair twenty) ++ Proof.messages Sha256.digest p) ∧
      p.verifies Sha256.digest (rootText Sha256.digest (pair twenty)) = true ∧
      ∃ d, (pair twenty).get? p.account = some d ∧ d.value = p.balance.value) ∧
    IsBinding Sha256.digest
        (messages Sha256.digest (pair twenty) ++ messages Sha256.digest (pair rescaled)) ∧
      rootText Sha256.digest (pair twenty) = rootText Sha256.digest (pair rescaled) ∧
      ∀ account, ((pair twenty).get? account).map Decimal.value =
        ((pair rescaled).get? account).map Decimal.value := by
  intro twenty rescaled
  have hleaf : leafMessage "bob" rescaled = leafMessage "bob" twenty := by decide
  have hmessages :
      messages Sha256.digest (pair rescaled) = messages Sha256.digest (pair twenty) := by
    rw [messages_pair, messages_pair, pairMessages, hleaf]
    rfl
  have hbind : IsBinding Sha256.digest (messages Sha256.digest (pair twenty)) := by
    rw [messages_pair]
    exact isBinding_of_nodup (by decide +kernel)
  have hroot : root Sha256.digest (pair twenty) = root Sha256.digest (pair rescaled) := by
    have hleaves : leaves Sha256.digest (pair twenty) = leaves Sha256.digest (pair rescaled) := by
      simp only [leaves, pair, List.map_cons, leaf, hleaf]
    rw [root, root, hleaves]
  obtain ⟨path, -, hclimb, hsub⟩ := exists_build? Sha256.length_digest
    (show (pair rescaled).get? "bob" = some rescaled by rfl)
  rw [hmessages] at hsub
  have hverifies : Proof.verifies Sha256.digest ⟨"bob", rescaled, path⟩
      (rootText Sha256.digest (pair twenty)) = true :=
    verifies_of_climb (hclimb.trans (congrArg some hroot.symm))
  have hproof := hbind.mono (List.append_subset.mpr ⟨List.Subset.refl _, hsub⟩)
  have hpair := hbind.mono (List.append_subset.mpr ⟨List.Subset.refl _,
    hmessages ▸ List.Subset.refl (messages Sha256.digest (pair twenty))⟩)
  have htext := congrArg (fun h => String.ofList (Text.Hex.encode h)) hroot
  obtain ⟨hsound, hunique⟩ := root_binds Sha256.digest Sha256.length_digest
  exact ⟨Sha256.length_digest,
    ⟨⟨"bob", rescaled, path⟩, rfl, rfl, hproof, hverifies, hsound _ _ hproof hverifies⟩,
    hpair, htext, hunique _ _ hpair htext⟩

end Merkle
end LedgerGate
