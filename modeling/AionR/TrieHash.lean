import AionR.Lib.AscList
import AionR.Rlp.Stream
import AionR.Trie.NibbleSlice
import AionR.Lib.Except

/-!
# `triehash`: the root of a map at once

`trie_root` (`src/util/triehash/src/lib.rs`) computes the root hash of the trie holding a set of
entries without building the trie. It collects the entries into a `BTreeMap`, which sorts them by
key and keeps the last value of a key, reads the keys as nibbles (`as_nibbles`, here `nibblesOf`),
and hashes the RLP that `hash256rlp` writes for the sorted entries.

`hash256rlp` writes the node for entries whose keys share their first `pre_len` nibbles: nothing,
a leaf for one entry, an extension by the longest prefix they share beyond `pre_len`, or a branch
with one slot for each next nibble and the value of a key that ends at `pre_len`. `hash256aux`
writes a child into its parent: its RLP when that is shorter than 32 bytes, its hash otherwise.

## Model

The functions write into an `RlpStream`; here they return the bytes they write, and a list the
concatenated items of its elements under `encodeListPayload`. The loop over the sixteen nibbles of
a branch is `branchItems`, which carries the entries from `begin` on. Each turn takes the entries
whose nibble at `pre_len` is the turn's, as `take_while` does; `take_while` reads the first entry
it rejects too, so indexing a key that ends at `pre_len` panics there. Slicing `key[pre_len..]`
panics for a key shorter than `pre_len`. `blake2b` is a parameter.

Each call goes deeper into the keys or shortens the entries left: the recursion is on `weight`,
the number of key nibbles past `pre_len`.
-/

namespace AionR

namespace TrieHash

open Rlp

/-- `shared_prefix_len`: how many leading nibbles two keys have in common. -/
def sharedPrefixLen {α : Type} [DecidableEq α] : List α → List α → ℕ
  | a :: as, b :: bs => if a = b then sharedPrefixLen as bs + 1 else 0
  | _, _ => 0

/-- The nibbles of the keys past `preLen`, one more for each entry: what the recursion uses up. -/
def weight (input : List (List UInt8 × Bytes)) (preLen : ℕ) : ℕ :=
  (input.map fun q ↦ q.1.length + 1 - preLen).sum

theorem weight_cons (q : List UInt8 × Bytes) (input : List (List UInt8 × Bytes)) (preLen : ℕ) :
    weight (q :: input) preLen = (q.1.length + 1 - preLen) + weight input preLen := by
  simp [weight]

theorem weight_antitone (input : List (List UInt8 × Bytes)) {p p' : ℕ} (h : p ≤ p') :
    weight input p' ≤ weight input p := by
  induction input with
  | nil => simp [weight]
  | cons q input ih =>
    rw [weight_cons, weight_cons]
    omega

theorem weight_drop_le (input : List (List UInt8 × Bytes)) (n preLen : ℕ) :
    weight (input.drop n) preLen ≤ weight input preLen := by
  induction input generalizing n with
  | nil => simp
  | cons q input ih =>
    cases n with
    | zero => exact le_rfl
    | succ n =>
      rw [List.drop_succ_cons, weight_cons]
      exact (ih n).trans (Nat.le_add_left _ _)

theorem weight_takeWhile_le (input : List (List UInt8 × Bytes)) (f : List UInt8 × Bytes → Bool)
    (preLen : ℕ) : weight (input.takeWhile f) preLen ≤ weight input preLen := by
  induction input with
  | nil => simp
  | cons q input ih =>
    rw [List.takeWhile_cons]
    split
    · rw [weight_cons, weight_cons]
      omega
    · simp [weight]

/-- Going one nibble deeper into keys that all reach past it uses up one nibble of each. -/
theorem weight_succ_lt {input : List (List UInt8 × Bytes)} {preLen : ℕ} (hne : input ≠ [])
    (hlong : ∀ q ∈ input, preLen < q.1.length) : weight input (preLen + 1) < weight input preLen := by
  induction input with
  | nil => exact absurd rfl hne
  | cons q input ih =>
    rw [weight_cons, weight_cons]
    have hq := hlong q List.mem_cons_self
    have hrest : weight input (preLen + 1) ≤ weight input preLen :=
      weight_antitone input (Nat.le_succ preLen)
    omega

/-- The fold for `shared_prefix` starts from the first key's length and only goes down. -/
theorem foldl_min_le {β : Type} (f : β → ℕ) : ∀ (l : List β) (init : ℕ),
    l.foldl (fun acc q ↦ min (f q) acc) init ≤ init
  | [], _ => le_rfl
  | _ :: l, _ => (foldl_min_le f l _).trans (min_le_right _ _)

/-- Taking the entries whose nibble at `preLen` is the turn's leaves none that is too short. -/
theorem lt_length_of_mem_takeWhile {rest : List (List UInt8 × Bytes)} {preLen i : ℕ}
    {q : List UInt8 × Bytes}
    (hq : q ∈ rest.takeWhile fun q ↦ q.1[preLen]? == some i.toUInt8) : preLen < q.1.length := by
  have h := List.mem_takeWhile_imp hq
  simp only [beq_iff_eq] at h
  exact (List.getElem?_eq_some_iff.mp h).1

/-- Distinct nibbles are distinct bytes. -/
theorem nibble_toUInt8_inj {i j : Fin 16} (h : i.val.toUInt8 = j.val.toUInt8) : i = j := by
  have := congrArg UInt8.toNat h
  simp at this
  exact Fin.ext (by omega)

section Hash

variable (blake2b : Bytes → Vector UInt8 32)

mutual
/-- `hash256rlp`: the RLP of the node for `input`, whose keys share their first `preLen`
nibbles. -/
def hash256rlp (input : List (List UInt8 × Bytes)) (preLen : ℕ) : Checked Bytes :=
  match input with
  | [] => pure (encodeValue [])
  | [(key, value)] => do
    let suffix ← Checked.slice key preLen key.length
    let partialKey ← hexPrefixEncode suffix true
    pure (encodeListPayload (encodeValue partialKey ++ encodeValue value))
  | (key, value) :: second :: rest =>
    -- the minimum over the later keys of the prefix each shares with the first
    let sharedPrefix := (second :: rest).foldl (fun acc q ↦ min (sharedPrefixLen key q.1) acc)
      key.length
    if preLen < sharedPrefix then do
      let part ← Checked.slice key preLen sharedPrefix
      let partialKey ← hexPrefixEncode part false
      let child ← hash256aux ((key, value) :: second :: rest) sharedPrefix
      pure (encodeListPayload (encodeValue partialKey ++ child))
    else do
      -- a key ending here is first, and its value is the branch's
      let begin := if preLen = key.length then 1 else 0
      let items ← branchItems (((key, value) :: second :: rest).drop begin) preLen (List.range 16)
      let valueItem := if preLen = key.length then encodeValue value else encodeValue []
      pure (encodeListPayload (items ++ valueItem))
termination_by 18 * weight input preLen + 17
decreasing_by
  · -- the extension: the shared prefix lies past `preLen` and within the first key
    have hlt : preLen < sharedPrefix := ‹_›
    have hmin : sharedPrefix ≤ key.length := foldl_min_le _ _ _
    simp only [sharedPrefix] at hlt hmin
    have hrest := weight_antitone rest hlt.le
    simp only [weight_cons]
    omega
  · -- the branch: its loop starts at the first entry or the second
    have := weight_drop_le ((key, value) :: second :: rest)
      (if _ : preLen = key.length then 1 else 0) preLen
    simp only [List.length_range]
    omega

/-- The loop over the sixteen nibbles of a branch, from the entries at `begin` on: a child for
the entries whose nibble at `preLen` is the turn's, or empty data. -/
def branchItems (rest : List (List UInt8 × Bytes)) (preLen : ℕ) : List ℕ → Checked Bytes
  | [] => pure []
  | i :: is => do
    let group := rest.takeWhile fun q ↦ q.1[preLen]? == some i.toUInt8
    -- `take_while` indexes the first entry it rejects as well
    let _ ← match (rest.drop group.length).head? with
      | some q => Checked.index q.1 preLen
      | none => pure 0
    let item ← if group = [] then pure (encodeValue []) else hash256aux group (preLen + 1)
    let items ← branchItems (rest.drop group.length) preLen is
    pure (item ++ items)
termination_by is => 18 * weight rest preLen + is.length
decreasing_by
  · have := weight_drop_le rest (List.takeWhile (fun q ↦ q.1[preLen]? == some i.toUInt8) rest).length
      preLen
    simp only [List.length_cons]
    omega
  · -- a nonempty group: its keys all reach past `preLen`
    have hne : List.takeWhile (fun q ↦ q.1[preLen]? == some i.toUInt8) rest ≠ [] := ‹_›
    have hlt := weight_succ_lt hne fun q hq ↦ lt_length_of_mem_takeWhile hq
    have hle := weight_takeWhile_le rest (fun q ↦ q.1[preLen]? == some i.toUInt8) preLen
    simp only [List.length_cons]
    omega

/-- `hash256aux`: the item a child gives its parent, its RLP below 32 bytes and its hash
otherwise. -/
def hash256aux (input : List (List UInt8 × Bytes)) (preLen : ℕ) : Checked Bytes := do
  let out ← hash256rlp input preLen
  pure (if out.length < 32 then out else encodeValue (blake2b out).toList)
termination_by 18 * weight input preLen + 18
end

/-- `gen_trie_root`: the hash of the root's RLP. -/
def genTrieRoot (input : List (List UInt8 × Bytes)) : Checked (Vector UInt8 32) := do
  let out ← hash256rlp blake2b input 0
  pure (blake2b out)

/-- `trie_root`: the entries sorted by key through a `BTreeMap`, their keys read as nibbles. -/
def trieRoot (input : List (Bytes × Bytes)) : Checked (Vector UInt8 32) :=
  genTrieRoot blake2b ((AscList.ofList input).map fun e ↦ (nibblesOf e.1, e.2))

/-! ## What the functions compute -/

/-- Keys that extend a common prefix share at least that prefix. -/
theorem length_le_sharedPrefixLen {α : Type} [DecidableEq α] :
    ∀ {r a b : List α}, r <+: a → r <+: b → r.length ≤ sharedPrefixLen a b
  | [], _, _, _, _ => Nat.zero_le _
  | x :: r, a, b, ha, hb => by
    obtain ⟨a', rfl⟩ : ∃ a', a = x :: a' := by
      obtain ⟨t, rfl⟩ := ha
      exact ⟨r ++ t, rfl⟩
    obtain ⟨b', rfl⟩ : ∃ b', b = x :: b' := by
      obtain ⟨t, rfl⟩ := hb
      exact ⟨r ++ t, rfl⟩
    rw [sharedPrefixLen, if_pos rfl, List.length_cons]
    exact Nat.succ_le_succ (length_le_sharedPrefixLen (List.cons_prefix_cons.mp ha).2
      (List.cons_prefix_cons.mp hb).2)

/-- Keys that differ at a position share no more than the nibbles before it. -/
theorem sharedPrefixLen_le_of_ne {α : Type} [DecidableEq α] :
    ∀ {a b : List α} {n : ℕ}, a[n]? ≠ b[n]? → sharedPrefixLen a b ≤ n
  | [], _, _, _ => Nat.zero_le _
  | _ :: _, [], _, _ => Nat.zero_le _
  | x :: a, y :: b, n, h => by
    rw [sharedPrefixLen]
    split_ifs with hxy
    · subst hxy
      cases n with
      | zero => exact absurd rfl h
      | succ n => exact Nat.succ_le_succ (sharedPrefixLen_le_of_ne h)
    · exact Nat.zero_le _

theorem foldl_min_le_of_mem {β : Type} (f : β → ℕ) :
    ∀ {l : List β} {q : β} (init : ℕ), q ∈ l → l.foldl (fun acc q ↦ min (f q) acc) init ≤ f q
  | _ :: l, q, init, hq => by
    rw [List.foldl_cons]
    rcases List.mem_cons.mp hq with rfl | hq
    · exact (foldl_min_le f l _).trans (min_le_left _ _)
    · exact foldl_min_le_of_mem f _ hq

theorem le_foldl_min {β : Type} (f : β → ℕ) {m : ℕ} :
    ∀ {l : List β} {init : ℕ}, m ≤ init → (∀ q ∈ l, m ≤ f q) →
      m ≤ l.foldl (fun acc q ↦ min (f q) acc) init
  | [], _, hinit, _ => hinit
  | q :: l, _, hinit, hl => by
    rw [List.foldl_cons]
    exact le_foldl_min f (le_min (hl q List.mem_cons_self) hinit)
      fun q' hq' ↦ hl q' (List.mem_cons_of_mem _ hq')

/-- One turn of the branch loop: the item of its group, then the items of the later turns. -/
theorem ite_append_eq_ok {c : Prop} [Decidable c] {x : Checked Bytes} {item rest : Bytes}
    (h : (if c then .ok (encodeValue []) else x) = .ok item) :
    (if c then .ok (encodeValue [] ++ rest) else x >>= fun item ↦ .ok (item ++ rest)) =
      .ok (item ++ rest) := by
  split_ifs at h ⊢
  · rw [Except.ok.injEq] at h
    rw [h]
  · rw [h]
    rfl

/-- The loop of a branch over entries grouped by their nibble at `preLen`, the groups in the
order of their nibbles: each turn takes exactly its group, and writes the item given for it. -/
theorem branchItems_flatMap (G : Fin 16 → List (List UInt8 × Bytes)) (items : Fin 16 → Bytes)
    (preLen : ℕ) (hG : ∀ i, ∀ e ∈ G i, e.1[preLen]? = some i.val.toUInt8)
    (hitem : ∀ i, (if G i = [] then .ok (encodeValue [])
      else hash256aux blake2b (G i) (preLen + 1)) = .ok (items i)) :
    ∀ is : List (Fin 16), is.Nodup →
      branchItems blake2b (is.flatMap G) preLen (is.map Fin.val) = .ok (is.map items).flatten
  | [], _ => by simp [branchItems]
  | i :: is, hnodup => by
    rw [List.nodup_cons] at hnodup
    -- the later groups start with a nibble other than `i`
    have hlater : ∀ e ∈ is.flatMap G, e.1[preLen]? ≠ some i.val.toUInt8 := by
      intro e he
      obtain ⟨j, hj, he⟩ := List.mem_flatMap.mp he
      rw [hG j e he]
      intro hji
      exact hnodup.1 (nibble_toUInt8_inj (Option.some.inj hji) ▸ hj)
    have hgroup : (G i ++ is.flatMap G).takeWhile (fun q ↦ q.1[preLen]? == some i.val.toUInt8) =
        G i := by
      rw [List.takeWhile_append_of_pos fun e he ↦ by simp [hG i e he]]
      cases hrest : is.flatMap G with
      | nil => simp
      | cons e rest =>
        have he := hlater e (by rw [hrest]; exact List.mem_cons_self)
        simp [he]
    have ih := branchItems_flatMap G items preLen hG hitem is hnodup.2
    simp only [List.flatMap_cons, List.map_cons, List.flatten_cons]
    rw [branchItems, hgroup, List.drop_left]
    -- `take_while` reads the first entry of the next group, which reaches past `preLen`
    cases hrest : is.flatMap G with
    | nil =>
      rw [hrest] at ih
      simp only [List.head?_nil, except_pure_eq, except_ok_bind, ih]
      exact ite_append_eq_ok (hitem i)
    | cons e rest =>
      rw [hrest] at ih
      obtain ⟨j, -, he⟩ := List.mem_flatMap.mp (hrest ▸ List.mem_cons_self : e ∈ is.flatMap G)
      simp only [List.head?_cons, Checked.index, hG j e he, except_pure_eq, except_ok_bind, ih]
      exact ite_append_eq_ok (hitem i)


end Hash

end TrieHash

end AionR
