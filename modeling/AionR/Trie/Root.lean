import AionR.Trie.EntryList
import AionR.Trie.Fresh
import AionR.Trie.Canonical
import AionR.TrieHash

/-!
# `commit` computes `trie_root`

The root `TrieDBMut::commit` writes for a trie is the root `triehash::trie_root` computes for the
trie's contents, after any run of `insert` and `remove` calls from `TrieDBMut::new`
(`TrieDBMut.commit_run_new_root`). Two implementations of one encoding agree: the trie encodes
each node from its children as it stores them, `trie_root` sorts the entries and encodes the node
for each group of keys that share a prefix.

The proof follows the tree. A node in normal form whose nodes are all new
(`Node.hash256rlp_keyedBelow`) is written by `hash256rlp` from its entries, keyed by their whole
path: a leaf holds one entry; the entries of an extension share its key and part right after it;
the entries of a branch part at the branch, and fall into one group for each child, in the order
of the children (`branch_keyedBelow_shape`). That list is the one `trie_root` builds from the
contents: both hold the same entries, in ascending order of key (`keyedBelow_eq_ofList`).
-/

namespace AionR

namespace Trie

open PrefixMap AscList TrieHash Rlp

section Encoding

variable (blake2b : Bytes → Vector UInt8 32)

/-- The entries of a branch at path `q`: its value at `q`, then the entries of each child, child
by child. -/
theorem keyedBelow_branch (q : List (Fin 16)) (children : Fin 16 → Option NodeHandle)
    (value : Option Bytes) :
    keyedBelow q (Node.branch children value).entryList =
      value.toList.map (fun v ↦ (nibbleBytes q, v)) ++
        (List.finRange 16).flatMap fun i ↦ keyedBelow (q ++ [i]) (childEntryList (children i)) := by
  simp [Node.entryList, keyedBelow, List.map_flatMap, Function.comp_def]

/-- The group of an occupied child in normal form holds something. -/
theorem keyedBelow_child_ne_nil {child : Option NodeHandle} (h : ChildNormal child)
    (hsome : child.isSome) (q : List (Fin 16)) : keyedBelow q (childEntryList child) ≠ [] := by
  cases child with
  | none => exact absurd hsome (by simp)
  | some child =>
    simpa [keyedBelow, childEntryList] using childEntryList_ne_nil h

/-- A branch in normal form with no value has two occupied children. -/
theorem exists_occupied_ne {children : Fin 16 → Option NodeHandle}
    (h : 2 ≤ occupants children none) (i : Fin 16) : ∃ j, j ≠ i ∧ (children j).isSome := by
  have hlen : 2 ≤ (occupied children).length := by simpa [occupants] using h
  obtain ⟨a, b, rest, hab⟩ : ∃ a b rest, occupied children = a :: b :: rest := by
    rcases hocc : occupied children with _ | ⟨a, _ | ⟨b, rest⟩⟩
    all_goals simp_all
  have hnodup := nodup_occupied children
  rw [hab, List.nodup_cons] at hnodup
  have hne : a ≠ b := fun h ↦ hnodup.1 (h ▸ List.mem_cons_self)
  have ha : (children a).isSome := mem_occupied.mp (by rw [hab]; exact List.mem_cons_self)
  have hb : (children b).isSome :=
    mem_occupied.mp (by rw [hab]; exact List.mem_cons_of_mem _ List.mem_cons_self)
  by_cases hai : a = i
  · exact ⟨b, fun h ↦ hne (hai.trans h.symm), hb⟩
  · exact ⟨a, hai, ha⟩

/-- The group of an occupied child holds an entry with the child's index past the branch's path. -/
theorem exists_mem_group (q : List (Fin 16)) {children : Fin 16 → Option NodeHandle}
    (hchildren : ∀ i, ChildNormal (children i)) (j : Fin 16) (hj : (children j).isSome) :
    ∃ e, e ∈ (List.finRange 16).flatMap (fun i ↦ keyedBelow (q ++ [i]) (childEntryList (children i))) ∧
      e.1[q.length]? = some j.val.toUInt8 := by
  obtain ⟨e, he⟩ := List.exists_mem_of_ne_nil _ (keyedBelow_child_ne_nil (hchildren j) hj (q ++ [j]))
  exact ⟨e, List.mem_flatMap.mpr ⟨j, List.mem_finRange j, he⟩, getElem?_of_mem_keyedBelow he⟩

/-- In a branch with no value, the first entry lies below the branch's path, and a later entry,
in another child's group, has another nibble past that path. -/
theorem exists_parting_entry (q : List (Fin 16)) {children : Fin 16 → Option NodeHandle}
    (hchildren : ∀ i, ChildNormal (children i)) (hocc : 2 ≤ occupants children none)
    {k₀ : List UInt8} {v₀ : Bytes} {tail : List (List UInt8 × Bytes)}
    (hL : (List.finRange 16).flatMap (fun i ↦ keyedBelow (q ++ [i]) (childEntryList (children i))) =
      (k₀, v₀) :: tail) :
    q.length ≠ k₀.length ∧ ∃ e ∈ tail, k₀[q.length]? ≠ e.1[q.length]? := by
  obtain ⟨i₀, -, hk₀⟩ := List.mem_flatMap.mp (hL ▸ List.mem_cons_self)
  have hi₀ : k₀[q.length]? = some i₀.val.toUInt8 := getElem?_of_mem_keyedBelow hk₀
  refine ⟨fun h ↦ ?_, ?_⟩
  · rw [h, List.getElem?_eq_none le_rfl] at hi₀
    cases hi₀
  · -- another occupied child's group holds an entry with that child's index there
    obtain ⟨j, hji, hj⟩ := exists_occupied_ne hocc i₀
    obtain ⟨e, he, hej⟩ := exists_mem_group q hchildren j hj
    have hne : k₀[q.length]? ≠ e.1[q.length]? := by
      rw [hi₀, hej]
      exact fun h ↦ hji (nibble_toUInt8_inj (Option.some.inj h)).symm
    rw [hL] at he
    rcases List.mem_cons.mp he with rfl | he
    · exact absurd rfl hne
    · exact ⟨e, he, hne⟩

/-- What `hash256rlp` finds in the entries of a branch in normal form: two entries or more, which
share no nibble past the branch's path; after the branch's value, if any, the groups of its
children; and the value item the branch's RLP ends with. -/
theorem branch_keyedBelow_shape (q : List (Fin 16)) {children : Fin 16 → Option NodeHandle}
    {value : Option Bytes} (hchildren : ∀ i, ChildNormal (children i))
    (hocc : 2 ≤ occupants children value) :
    ∃ k₀ v₀ second rest,
      keyedBelow q (Node.branch children value).entryList = (k₀, v₀) :: second :: rest ∧
      (second :: rest).foldl (fun acc e ↦ min (sharedPrefixLen k₀ e.1) acc) k₀.length ≤ q.length ∧
      ((k₀, v₀) :: second :: rest).drop (if q.length = k₀.length then 1 else 0) =
        (List.finRange 16).flatMap (fun i ↦ keyedBelow (q ++ [i]) (childEntryList (children i))) ∧
      (if q.length = k₀.length then encodeValue v₀ else encodeValue []) = valueItem value := by
  rw [keyedBelow_branch]
  cases value with
  | some v =>
    -- the value comes first, at the branch's own path, and some child's group follows it
    have hocc' : 0 < (occupied children).length := by
      simp only [occupants, Option.isSome_some, if_true] at hocc
      omega
    obtain ⟨j, hj⟩ := List.exists_mem_of_length_pos hocc'
    obtain ⟨e, he, -⟩ := exists_mem_group q hchildren j (mem_occupied.mp hj)
    obtain ⟨second, rest, hrest⟩ := List.exists_cons_of_ne_nil (List.ne_nil_of_mem he)
    refine ⟨nibbleBytes q, v, second, rest, by simp [hrest], ?_, ?_, ?_⟩
    · exact (foldl_min_le _ _ _).trans (by simp)
    · simp [hrest]
    · simp [valueItem]
  | none =>
    -- the first entry lies in some child's group, and another child's group parts from it
    obtain ⟨⟨k₀, v₀⟩, tail, hL⟩ : ∃ e tail,
        (List.finRange 16).flatMap (fun i ↦ keyedBelow (q ++ [i]) (childEntryList (children i))) =
          e :: tail := by
      obtain ⟨j, -, hj⟩ := exists_occupied_ne hocc 0
      obtain ⟨e, he, -⟩ := exists_mem_group q hchildren j hj
      exact List.exists_cons_of_ne_nil (List.ne_nil_of_mem he)
    obtain ⟨hlong, e, hetail, hne⟩ := exists_parting_entry q hchildren hocc hL
    obtain ⟨second, rest, rfl⟩ := List.exists_cons_of_ne_nil (List.ne_nil_of_mem hetail)
    refine ⟨k₀, v₀, second, rest, by simp [hL], ?_, ?_, ?_⟩
    · exact (foldl_min_le_of_mem _ _ hetail).trans (sharedPrefixLen_le_of_ne hne)
    · simp [hlong, hL]
    · simp [hlong, valueItem]

theorem slice_nibbleBytes (q key rest : List (Fin 16)) :
    Checked.slice (nibbleBytes (q ++ key ++ rest)) q.length (q.length + key.length) =
      .ok (nibbleBytes key) := by
  rw [Checked.slice_of_le (by omega) (by simp)]
  simp

/-- The shared prefix of entries that all extend one path and part right after it. -/
theorem foldl_sharedPrefix_eq {r : List (Fin 16)} {k₀ : List UInt8} {tail : List (List UInt8 × Bytes)}
    (hk₀ : nibbleBytes r <+: k₀) (htail : ∀ e ∈ tail, nibbleBytes r <+: e.1)
    (hle : tail.foldl (fun acc e ↦ min (sharedPrefixLen k₀ e.1) acc) k₀.length ≤ r.length) :
    tail.foldl (fun acc e ↦ min (sharedPrefixLen k₀ e.1) acc) k₀.length = r.length := by
  refine le_antisymm hle ?_
  rw [← length_nibbleBytes r]
  exact le_foldl_min _ hk₀.length_le fun e he ↦ length_le_sharedPrefixLen hk₀ (htail e he)

/-- Below an extension's path `q ++ key`, the keys of a branch in normal form all extend that path
and share nothing past it. -/
theorem extension_keyedBelow_shape (q key : List (Fin 16)) {children : Fin 16 → Option NodeHandle}
    {value : Option Bytes} (hchildren : ∀ i, ChildNormal (children i))
    (hocc : 2 ≤ occupants children value) :
    ∃ t v₀ second rest,
      keyedBelow (q ++ key) (Node.branch children value).entryList =
        (nibbleBytes (q ++ key ++ t), v₀) :: second :: rest ∧
      (second :: rest).foldl (fun acc e ↦ min (sharedPrefixLen (nibbleBytes (q ++ key ++ t)) e.1) acc)
        (nibbleBytes (q ++ key ++ t)).length = (q ++ key).length := by
  obtain ⟨k₀, v₀, second, rest, hL, hle, -, -⟩ := branch_keyedBelow_shape (q ++ key) hchildren hocc
  have hextend : ∀ e ∈ (k₀, v₀) :: second :: rest, nibbleBytes (q ++ key) <+: e.1 := by
    rw [← hL]
    exact fun e he ↦ prefix_of_mem_keyedBelow he
  have hshared := foldl_sharedPrefix_eq (hextend _ List.mem_cons_self)
    (fun e he ↦ hextend e (List.mem_cons_of_mem _ he)) hle
  -- the first key is the nibbles of a path below the extension
  obtain ⟨e, -, he⟩ := List.mem_map.mp (hL ▸ List.mem_cons_self :
    (k₀, v₀) ∈ keyedBelow (q ++ key) (Node.branch children value).entryList)
  obtain ⟨rfl, -⟩ := Prod.mk.inj he
  exact ⟨e.1, v₀, second, rest, hL, hshared⟩

mutual
/-- `hash256rlp` writes, for the entries of a node in normal form whose nodes are new, keyed by
their whole path, exactly the RLP `commit` writes for the node. -/
theorem Node.hash256rlp_keyedBelow : ∀ (node : Node) (q : List (Fin 16)), node.Normal →
    node.Fresh → hash256rlp blake2b (keyedBelow q node.entryList) q.length = .ok (node.rlp blake2b)
  | .empty, q, _, _ => by
    rw [Node.entryList, keyedBelow, List.map_nil, hash256rlp.eq_1]
    rfl
  | .leaf key value, q, _, _ => by
    have hslice := slice_nibbleBytes q key []
    rw [List.append_nil] at hslice
    simp only [Node.entryList, keyedBelow, List.map_cons, List.map_nil, hash256rlp.eq_2,
      length_nibbleBytes, List.length_append]
    rw [hslice, except_ok_bind, hexPrefixEncode_eq]
    rfl
  | .extension key child, q, hnormal, hfresh => by
    obtain ⟨hkey, hchild, hbranch⟩ := hnormal
    have haux := NodeHandle.hash256aux_keyedBelow child (q ++ key) hchild hfresh
    -- the child is a new branch in normal form
    obtain ⟨node, rfl, hnode⟩ := NodeHandle.eq_of_fresh hfresh
    obtain ⟨hnode', -⟩ := hchild
    cases node with
    | branch children value =>
      obtain ⟨t, v₀, second, rest, hL, hshared⟩ := extension_keyedBelow_shape q key hnode'.1 hnode'.2
      have hL' : keyedBelow q (Node.extension key (.inMemory (.new (.branch children value)))).entryList =
          (nibbleBytes (q ++ key ++ t), v₀) :: second :: rest := by
        rw [Node.entryList, keyedBelow_map_append]
        exact hL
      -- the keys part right after the extension's path, which is longer than `q`
      have hlt : q.length < (q ++ key).length := by
        simp only [List.length_append]
        have := List.length_pos_of_ne_nil hkey
        omega
      rw [NodeHandle.entryList, Stored.entryList_eq, Stored.node, hL] at haux
      rw [hL', hash256rlp.eq_3, hshared, if_pos hlt]
      simp only [List.length_append] at haux ⊢
      rw [slice_nibbleBytes, except_ok_bind, hexPrefixEncode_eq, except_ok_bind, haux]
      rfl
    | _ => exact hbranch.elim
  | .branch children value, q, hnormal, hfresh => by
    obtain ⟨k₀, v₀, second, rest, hL, hle, hdrop, hvalue⟩ :=
      branch_keyedBelow_shape q hnormal.1 hnormal.2
    -- each turn of the loop writes the item of its child
    have hitems := branchItems_flatMap blake2b
      (fun i ↦ keyedBelow (q ++ [i]) (childEntryList (children i)))
      (fun i ↦ childItem blake2b (children i)) q.length
      (fun i e he ↦ getElem?_of_mem_keyedBelow he)
      (fun i ↦ by
        have h := childItem_keyedBelow (children i) (q ++ [i]) (hnormal.1 i) (hfresh i)
        rwa [List.length_append, List.length_singleton] at h)
      (List.finRange 16) (List.nodup_finRange 16)
    have hrange : (List.finRange 16).map Fin.val = List.range 16 := by simp
    rw [hrange] at hitems
    rw [hL, hash256rlp.eq_3, if_neg (not_lt.mpr hle)]
    simp only
    rw [hdrop, hitems, except_ok_bind, hvalue]
    rfl

theorem NodeHandle.hash256aux_keyedBelow : ∀ (handle : NodeHandle) (q : List (Fin 16)),
    handle.Normal → handle.Fresh →
      hash256aux blake2b (keyedBelow q handle.entryList) q.length = .ok (handle.item blake2b)
  | .inMemory stored, q, hnormal, hfresh => Stored.hash256aux_keyedBelow stored q hnormal hfresh
  | .hash _, _, hnormal, _ => hnormal.elim

theorem Stored.hash256aux_keyedBelow : ∀ (stored : Stored) (q : List (Fin 16)),
    stored.Normal → stored.Fresh →
      hash256aux blake2b (keyedBelow q stored.entryList) q.length = .ok (stored.item blake2b)
  | .new node, q, hnormal, hfresh => by
    rw [hash256aux.eq_1, Stored.entryList, Node.hash256rlp_keyedBelow node q hnormal.1 hfresh,
      except_ok_bind, Stored.item]
    -- a node of 32 bytes or more is given by its hash
    by_cases hlen : 32 ≤ (node.rlp blake2b).length
    · rw [if_neg (not_lt.mpr hlen), if_pos hlen]
      rfl
    · rw [if_pos (not_le.mp hlen), if_neg hlen]
      rfl
  | .cached _ _, _, _, hfresh => hfresh.elim

theorem childItem_keyedBelow : ∀ (child : Option NodeHandle) (q : List (Fin 16)),
    ChildNormal child → ChildFresh child →
      (if keyedBelow q (childEntryList child) = [] then .ok (encodeValue [])
        else hash256aux blake2b (keyedBelow q (childEntryList child)) q.length) =
        .ok (childItem blake2b child)
  | none, _, _, _ => rfl
  | some child, q, hnormal, hfresh => by
    rw [if_neg (keyedBelow_child_ne_nil hnormal rfl q)]
    exact NodeHandle.hash256aux_keyedBelow child q hnormal hfresh
end

/-! ## The list `trie_root` builds -/

/-- The list `trie_root` hashes for entries with distinct keys is the node's entry list, when the
entries are the node's and its paths are nibbles of keys. -/
theorem ofList_map_eq_keyedBelow {node : Node}
    (hkeyed : ∀ path, node.entries path ≠ none → ∃ key, keyNibbles key = path)
    {input : List (Bytes × Bytes)} (hkeys : (input.map Prod.fst).Nodup)
    (hinput : ∀ k v, (k, v) ∈ input ↔ node.entries (keyNibbles k) = some v) :
    (ofList input).map (fun e ↦ (nibblesOf e.1, e.2)) = keyedBelow [] node.entryList := by
  refine eq_of_mem_iff ((ascending_ofList input).map_keys fun _ _ ↦ nibblesOf_lt)
    (ascending_keyedBelow [] (Node.ascending_entryList node)) ?_
  rintro ⟨k', v⟩
  simp only [List.mem_map, mem_ofList hkeys, keyedBelow, List.nil_append, Prod.mk.injEq]
  constructor
  · rintro ⟨⟨k, w⟩, hmem, rfl, rfl⟩
    refine ⟨(keyNibbles k, w), (Node.mem_entryList node _ _).mpr ((hinput k w).mp hmem), ?_, rfl⟩
    exact nibbleBytes_keyNibbles k
  · rintro ⟨⟨p, w⟩, hmem, rfl, rfl⟩
    have hp := (Node.mem_entryList node p w).mp hmem
    obtain ⟨key, rfl⟩ := hkeyed p (by rw [hp]; simp)
    exact ⟨(key, w), (hinput key w).mpr hp, (nibbleBytes_keyNibbles key).symm, rfl⟩

/-- A list's RLP is never the null RLP. -/
theorem encodeListPayload_ne_nullRlp (payload : Bytes) : encodeListPayload payload ≠ nullRlp := by
  unfold encodeListPayload nullRlp
  split_ifs with hlen
  · intro h
    obtain ⟨hhead, rfl⟩ := List.cons.inj h
    exact absurd hhead (by decide)
  · intro h
    have := congrArg List.length h
    simp only [List.length_cons, List.length_append, List.length_nil] at this
    omega

theorem Node.rlp_ne_nullRlp {node : Node} (h : node ≠ .empty) : node.rlp blake2b ≠ nullRlp := by
  cases node with
  | empty => exact absurd rfl h
  | _ => exact encodeListPayload_ne_nullRlp _

end Encoding

namespace TrieDBMut

/-- After any run of `insert` and `remove` calls from `TrieDBMut::new`, `commit` makes the root
the one `trie_root` computes for the contents the calls leave, given as a list of entries with
distinct keys. This holds for every hash function under which `BLAKE2B_NULL_RLP` is the hash of
the null RLP, whatever the database, and however the calls overwrite and remove keys: so the root
depends on the contents alone. -/
theorem commit_run_new_root (blake2b : Bytes → Vector UInt8 32)
    (hnull : blake2b nullRlp = blake2bNullRlp) {db : NodeStore} (hdb : db.HoldsNull) (ops : List Op)
    {input : List (Bytes × Bytes)} (hkeys : (input.map Prod.fst).Nodup)
    (hinput : ∀ k v, (k, v) ∈ input ↔ (runMap ops fun _ ↦ none).1 k = some v) (mdb : MemoryDB) :
    ∃ t olds, run db ops new = .ok (t, olds) ∧
      trieRoot blake2b input = .ok (t.commit blake2b mdb).2.root := by
  obtain ⟨t, hrun, hvalid, hkeyed, hcontents⟩ := run_refines hdb ops valid_new keyed_new
  rw [contents_new] at hcontents
  refine ⟨t, _, hrun, ?_⟩
  rcases run_fresh hdb ops fresh_new hrun with ⟨hroot, hnullRoot⟩ | hfresh
  · -- the calls left nothing: both roots are the hash of the null RLP
    have hempty : input = [] := by
      rcases input with _ | ⟨⟨k, v⟩, input⟩
      · rfl
      · have h := (hinput k v).mp List.mem_cons_self
        rw [← hcontents] at h
        simp [contents, hroot] at h
    subst hempty
    rw [commit_root_of_hash blake2b mdb hroot, hnullRoot, trieRoot, genTrieRoot]
    simp [ofList, hash256rlp.eq_1, ← hnull, nullRlp, encodeValue]
  · -- the root is a new node in normal form, which `hash256rlp` encodes from its entries
    obtain ⟨node, hnode, hnodeFresh⟩ := NodeHandle.eq_of_fresh hfresh
    have hnormal : node.Normal ∧ node ≠ .empty := by
      rcases hvalid with h | h
      · rw [hnode] at h
        cases h
      · rw [hnode] at h
        exact h
    have hlist : (ofList input).map (fun e ↦ (nibblesOf e.1, e.2)) = keyedBelow [] node.entryList := by
      refine ofList_map_eq_keyedBelow
        (fun path hpath ↦ hkeyed path (by simpa [hnode, Stored.node] using hpath)) hkeys fun k v ↦ ?_
      rw [hinput, ← hcontents]
      simp [contents, hnode, Stored.node]
    have hrlp := Node.hash256rlp_keyedBelow blake2b node [] hnormal.1 hnodeFresh
    rw [commit_root_of_new blake2b mdb hnode, if_neg (Node.rlp_ne_nullRlp blake2b hnormal.2),
      trieRoot, genTrieRoot, hlist, ← List.length_nil, hrlp]
    rfl

/-- A hash function under which `BLAKE2B_NULL_RLP` is the hash of the null RLP; any other value
hashes to its length. -/
def sampleHash (value : Bytes) : Vector UInt8 32 :=
  if value = nullRlp then blake2bNullRlp else Vector.replicate 32 value.length.toUInt8

theorem sampleHash_nullRlp : sampleHash nullRlp = blake2bNullRlp := if_pos rfl

/-- The calls of `sampleCalls` leave one key. -/
theorem mem_runMap_sampleCalls (k v : Bytes) :
    (k, v) ∈ [(([0x13] : Bytes), ([3] : Bytes))] ↔ (runMap sampleCalls fun _ ↦ none).1 k = some v := by
  simp only [sampleCalls, runMap, Op.update, List.isEmpty_cons, Bool.false_eq_true, if_false,
    List.mem_singleton, Prod.mk.injEq]
  by_cases h13 : k = [0x13]
  · subst h13
    simp [eq_comm]
  · by_cases h12 : k = [0x12]
    · subst h12
      simp
    · simp [h13, h12]

theorem commit_run_new_root_sampleCalls :
    sampleHash nullRlp = blake2bNullRlp ∧ freshStore.HoldsNull ∧
      ([(([0x13] : Bytes), ([3] : Bytes))].map Prod.fst).Nodup ∧
      (∀ k v, (k, v) ∈ [(([0x13] : Bytes), ([3] : Bytes))] ↔
        (runMap sampleCalls fun _ ↦ none).1 k = some v) ∧
      ∃ t olds, run freshStore sampleCalls new = .ok (t, olds) ∧
        trieRoot sampleHash [([0x13], [3])] = .ok (t.commit sampleHash ⟨∅⟩).2.root :=
  ⟨sampleHash_nullRlp, holdsNull_freshStore, by decide, mem_runMap_sampleCalls,
    commit_run_new_root sampleHash sampleHash_nullRlp holdsNull_freshStore sampleCalls (by decide)
      mem_runMap_sampleCalls ⟨∅⟩⟩

end TrieDBMut

end Trie

end AionR
