import NovaBase.Index.Routes
import NovaBase.Index.Snapshot
import NovaBase.Nbf.RoundTrip

/-!
# Snapshots are read back

The writer of a snapshot bounds the length of a string by its length field, the
reader by `maxStringBytes`. All other limits of the reader are met by every tree
that `verify` accepts. So a snapshot is read back exactly when no string key of
the tree is longer than `maxStringBytes`.
-/

namespace NovaBase.Index

open Lib Lib.Bytes

/-- The result is `value` if `fits` holds, and an error otherwise. -/
def Decodes {ε α : Type} (result : Except ε α) (value : α) (fits : Prop) : Prop :=
  (fits → result = .ok value) ∧ (¬fits → ∃ cause, result = .error cause)

/-- Whatever the encoder writes for `a`, the decoder reads again if `fits` holds, and does not read
otherwise. The input has at most `limit` bytes. -/
def Inverts {α : Type} (limit : Nat) (encode : α → Result Bytes)
    (decode : Bytes → Result (α × Bytes)) (fits : Prop) (a : α) : Prop :=
  ∀ bytes, encode a = .ok bytes → 0 < bytes.length ∧ ∀ rest,
    (bytes ++ rest).length ≤ limit → Decodes (decode (bytes ++ rest)) (a, rest) fits

section Decoding

variable {ε α β : Type} {p q : Prop}

theorem Decodes.of_ok {result : Except ε α} {value : α} (h : result = .ok value) :
    Decodes result value True :=
  ⟨fun _ => h, fun hfalse => absurd trivial hfalse⟩

theorem Decodes.congr {result : Except ε α} {value : α} (h : Decodes result value p)
    (hpq : p ↔ q) : Decodes result value q :=
  propext hpq ▸ h

/-- A sequence reads if both of its parts do. -/
theorem Decodes.bind {first : Except ε α} {next : α → Except ε β} {a : α} {b : β}
    (hfirst : Decodes first a p) (hnext : Decodes (next a) b q) :
    Decodes (first >>= next) b (p ∧ q) := by
  constructor
  · rintro ⟨hp, hq⟩
    rw [hfirst.1 hp, ok_bind, hnext.1 hq]
  · intro hneither
    by_cases hp : p
    · obtain ⟨cause, hcause⟩ := hnext.2 fun hq => hneither ⟨hp, hq⟩
      exact ⟨cause, by rw [hfirst.1 hp, ok_bind, hcause]⟩
    · obtain ⟨cause, hcause⟩ := hfirst.2 hp
      exact ⟨cause, by rw [hcause, error_bind]⟩

/-- A sequence reads if its second part does, where the first part always reads. -/
theorem Decodes.after {first : Except ε α} {next : α → Except ε β} {a : α} {b : β}
    (hfirst : first = .ok a) (hnext : Decodes (next a) b q) : Decodes (first >>= next) b q := by
  rwa [hfirst, ok_bind]

/-- A list is read back if each of its elements is. -/
theorem Inverts.many {limit : Nat} {encode : α → Result Bytes}
    {decode : Bytes → Result (α × Bytes)} {fits : α → Prop} (encodeAll : List α → Result Bytes)
    (hnil : encodeAll [] = .ok [])
    (hcons : ∀ a rest, encodeAll (a :: rest) = do
      let first ← encode a
      let others ← encodeAll rest
      return first ++ others)
    {xs : List α} (h : ∀ a ∈ xs, Inverts limit encode decode (fits a) a) {bytes : Bytes}
    (hbytes : encodeAll xs = .ok bytes) :
    xs.length ≤ bytes.length ∧ ∀ rest, (bytes ++ rest).length ≤ limit →
      Decodes (decodeMany decode xs.length (bytes ++ rest)) (xs, rest) (∀ a ∈ xs, fits a) := by
  induction xs generalizing bytes with
  | nil =>
      rw [hnil] at hbytes
      obtain rfl := Except.ok.inj hbytes
      refine ⟨le_rfl, fun rest _ => ?_⟩
      exact (Decodes.of_ok rfl).congr (by simp)
  | cons a xs ih =>
      rw [hcons] at hbytes
      simp only [bind_eq_ok, pure_eq_ok, Except.ok.injEq] at hbytes
      obtain ⟨first, hfirst, others, hothers, rfl⟩ := hbytes
      obtain ⟨hpos, hhead⟩ := h a List.mem_cons_self first hfirst
      obtain ⟨hlength, htail⟩ := ih (fun b hb => h b (List.mem_cons_of_mem _ hb)) hothers
      constructor
      · rw [List.length_cons, List.length_append]
        omega
      · intro rest hlimit
        rw [List.append_assoc] at hlimit ⊢
        have hshort : (others ++ rest).length ≤ limit := by
          rw [List.length_append] at hlimit
          omega
        rw [List.length_cons, decodeMany]
        refine (Decodes.bind (q := ∀ b ∈ xs, fits b) (hhead (others ++ rest) hlimit) ?_).congr
          (by simp)
        apply Decodes.congr (p := (∀ b ∈ xs, fits b) ∧ True) _ (and_iff_left trivial)
        exact (htail rest hshort).bind (.of_ok rfl)

end Decoding

section Numbers

theorem take_append {front : Bytes} {length : Nat} (h : front.length = length) (rest : Bytes) :
    Cursor.take length (front ++ rest) = .ok (front, rest) := by
  subst h
  have hlength : front.length ≤ (front ++ rest).length := by simp
  simp only [Cursor.take, require_of _ hlength, ok_bind, List.take_left, List.drop_left]
  rfl

theorem word_append {width number : Nat} (h : number < 256 ^ width) (rest : Bytes) :
    Cursor.word width (toBigEndian width number ++ rest) = .ok (number, rest) := by
  simp [Cursor.word, take_append (length_toBigEndian width number), fromBigEndian_toBigEndian h]

theorem u8_cons (byte : UInt8) (rest : Bytes) :
    Cursor.u8 (byte :: rest) = .ok (byte.toNat, rest) := by
  have htake : Cursor.take 1 (byte :: rest) = .ok ([byte], rest) := @take_append [byte] 1 rfl rest
  simp [Cursor.u8, Cursor.word, htake, fromBigEndian]

/-- A count is read as it was written, if it is not above the maximum. -/
theorem count_append (maximum : Nat) {number : Nat} {rest : Bytes} (h : number ≤ u32Max)
    (hrest : number ≤ rest.length) :
    Decodes (Cursor.count maximum (toBigEndian 4 number ++ rest)) (number, rest)
      (number ≤ maximum) := by
  have hword : Cursor.u32 (toBigEndian 4 number ++ rest) = .ok (number, rest) :=
    word_append (Nat.lt_of_le_of_lt h (by decide)) rest
  constructor
  · intro hmaximum
    simp [Cursor.count, hword, require_of _ (And.intro hmaximum hrest)]
  · intro hmaximum
    exact ⟨_, by simp [Cursor.count, hword, require, hmaximum]; rfl⟩

theorem inverts_number (limit number : Nat) :
    Inverts limit writeNumber Cursor.u64 True number := by
  intro bytes hbytes
  simp only [writeNumber, bind_eq_ok, require_eq_ok, pure_eq_ok, Except.ok.injEq] at hbytes
  obtain ⟨-, hnumber, rfl⟩ := hbytes
  refine ⟨by simp, fun rest _ => .of_ok ?_⟩
  exact word_append hnumber rest

theorem writeLen_eq_ok {length : Nat} {bytes : Bytes} :
    writeLen length = .ok bytes ↔ length ≤ u32Max ∧ toBigEndian 4 length = bytes := by
  simp [writeLen]

theorem writeNumber_eq_ok {number : Nat} {bytes : Bytes} :
    writeNumber number = .ok bytes ↔ number < 2 ^ 64 ∧ toBigEndian 8 number = bytes := by
  simp [writeNumber]

end Numbers

/-- A string key is no longer than the reader allows. -/
def IndexKey.Short : IndexKey → Prop
  | .string value => (utf8 value).length ≤ maxStringBytes
  | _ => True

instance IndexKey.Short.decidable : DecidablePred IndexKey.Short
  | .string value => inferInstanceAs (Decidable ((utf8 value).length ≤ maxStringBytes))
  | .int64 _ => .isTrue trivial
  | .float64 _ => .isTrue trivial
  | .novaId _ => .isTrue trivial

section Keys

theorem orderedF64_new (value : OrderedF64) : OrderedF64.new ⟨value.value.bits⟩ = value := by
  obtain ⟨value, hcanonical⟩ := value
  simp only [OrderedF64.new]
  split
  · rename_i hnan
    congr
    exact (hcanonical hnan).symm
  · rfl

theorem decodeId_append (id : NovaId) (rest : Bytes) :
    decodeId (id.bytes ++ rest) = .ok (id, rest) := by
  simp [decodeId, take_append id.length_eq, NovaId.fromBytes_bytes]

theorem decodeIds_append (ids : List NovaId) (rest : Bytes) :
    decodeMany decodeId ids.length (ids.flatMap NovaId.bytes ++ rest) = .ok (ids, rest) := by
  induction ids with
  | nil => rfl
  | cons id ids ih =>
      rw [List.flatMap_cons, List.append_assoc, List.length_cons, decodeMany, decodeId_append,
        ok_bind]
      simp only [ih, ok_bind, pure_eq_ok]

/-- A key is read as it was written, if it is not too long. -/
theorem inverts_key (limit : Nat) (key : IndexKey) :
    Inverts limit encodeKey decodeKey key.Short key := by
  intro bytes hbytes
  cases key with
  | int64 value =>
      obtain rfl := Except.ok.inj hbytes
      refine ⟨Nat.zero_lt_succ _, fun rest _ => .of_ok ?_⟩
      have hword : Cursor.u64 (toBigEndian 8 value.toUInt64.toNat ++ rest) =
          .ok (value.toUInt64.toNat, rest) := word_append value.toUInt64.toNat_lt rest
      have hvalue : (UInt64.ofNat value.toUInt64.toNat).toInt64 = value := by
        rw [UInt64.ofNat_toNat]
        rfl
      simp only [decodeKey, List.cons_append, u8_cons, ok_bind, UInt8.toNat_zero, hword, hvalue,
        pure_eq_ok]
  | float64 value =>
      obtain rfl := Except.ok.inj hbytes
      refine ⟨Nat.zero_lt_succ _, fun rest _ => .of_ok ?_⟩
      have hword : Cursor.u64 (toBigEndian 8 value.value.bits.toNat ++ rest) =
          .ok (value.value.bits.toNat, rest) := word_append value.value.bits.toNat_lt rest
      simp [decodeKey, u8_cons, hword, orderedF64_new]
  | string value =>
      simp only [encodeKey, bind_eq_ok, writeLen_eq_ok, pure_eq_ok, Except.ok.injEq] at hbytes
      obtain ⟨length, ⟨hlength, rfl⟩, rfl⟩ := hbytes
      refine ⟨Nat.zero_lt_succ _, fun rest _ => ?_⟩
      have hcount : Decodes (Cursor.count maxStringBytes (toBigEndian 4 (utf8 value).length ++
          (utf8 value ++ rest))) ((utf8 value).length, utf8 value ++ rest)
          ((utf8 value).length ≤ maxStringBytes) :=
        count_append maxStringBytes hlength (by simp)
      have hread : Cursor.take (utf8 value).length (utf8 value ++ rest) =
          .ok (utf8 value, rest) := take_append rfl rest
      simp only [decodeKey, List.cons_append, u8_cons, ok_bind, UInt8.reduceToNat,
        List.append_assoc]
      apply Decodes.congr (hcount.bind (q := True) (.of_ok ?_)) (and_iff_left trivial)
      simp only [hread, ok_bind, fromUTF8_utf8, pure_eq_ok]
  | novaId value =>
      obtain rfl := Except.ok.inj hbytes
      refine ⟨Nat.zero_lt_succ _, fun rest _ => .of_ok ?_⟩
      simp [decodeKey, u8_cons, decodeId_append]

/-- One entry of a leaf as it is written. -/
def encodeEntry (entry : LeafEntry) : Result Bytes := do
  let key ← encodeKey entry.1
  let count ← writeLen entry.2.length
  return key ++ (count ++ entry.2.flatMap NovaId.bytes)

theorem encodeEntries_cons (entry : LeafEntry) (rest : List LeafEntry) :
    encodeEntries (entry :: rest) = (do
      let first ← encodeEntry entry
      let others ← encodeEntries rest
      return first ++ others) := by
  simp only [encodeEntries, encodeEntry, bind_assoc, pure_bind, List.append_assoc]

theorem length_flatMap_bytes (ids : List NovaId) :
    (ids.flatMap NovaId.bytes).length = novaIdLength * ids.length := by
  induction ids with
  | nil => rfl
  | cons id rest ih =>
      rw [List.flatMap_cons, List.length_append, ih, id.length_eq, List.length_cons]
      ring

/-- An entry is read as it was written, if its key is not too long. -/
theorem inverts_entry (limit : Nat) {entry : LeafEntry} (hids : entry.2 ≠ []) :
    Inverts limit encodeEntry (decodeEntry limit) entry.1.Short entry := by
  obtain ⟨key, ids⟩ := entry
  intro bytes hbytes
  simp only [encodeEntry, bind_eq_ok, writeLen_eq_ok, pure_eq_ok, Except.ok.injEq] at hbytes
  obtain ⟨keyBytes, hkey, count, ⟨hcount, rfl⟩, rfl⟩ := hbytes
  obtain ⟨hpos, hreads⟩ := inverts_key limit key keyBytes hkey
  refine ⟨by rw [List.length_append]; omega, fun rest hlimit => ?_⟩
  have hlength : ids.length ≤ limit / 16 ∧
      ids.length ≤ (ids.flatMap NovaId.bytes ++ rest).length := by
    simp only [List.length_append, length_flatMap_bytes, novaIdLength] at hlimit ⊢
    omega
  have hnumber := (count_append (limit / 16) hcount hlength.2).1 hlength.1
  simp only [List.append_assoc] at hlimit ⊢
  rw [decodeEntry]
  apply Decodes.congr ((hreads _ hlimit).bind (q := True) (.of_ok ?_)) (and_iff_left trivial)
  have hcounted : ids.length ≠ 0 := fun hzero => hids (List.eq_nil_of_length_eq_zero hzero)
  simp only [hnumber, ok_bind, require_of _ hcounted, decodeIds_append, pure_eq_ok]

end Keys

/-- The keys of a node: those of its entries, or its separators. -/
def Node.keys : Node → List IndexKey
  | .leaf entries _ => entries.map Prod.fst
  | .internal keys _ => keys

/-- What `verify` checks of one node of a tree with `size` nodes, and the snapshot depends on. -/
def Node.Valid (maxKeys size : Nat) : Node → Prop
  | .leaf entries next =>
      entries.length ≤ maxKeys ∧ (∀ number, next = some number → number < size) ∧
        ∀ entry ∈ entries, entry.2 ≠ []
  | .internal keys children =>
      keys.length ≤ maxKeys ∧ children.length = keys.length + 1 ∧ children.length ≤ size ∧
        ∀ child ∈ children, child < size

section Nodes

variable {maxKeys size : Nat}

/-- A leaf is read as it was written, if its keys are not too long. -/
theorem inverts_leaf (limit : Nat) (hsize : size < 2 ^ 64) {entries : List LeafEntry}
    {next : Option Nat} (hvalid : (Node.leaf entries next).Valid maxKeys size) :
    Inverts limit encodeNode (decodeNode maxKeys limit) (∀ entry ∈ entries, entry.1.Short)
      (.leaf entries next) := by
  intro bytes hbytes
  obtain ⟨hentries, hnext, hids⟩ := hvalid
  simp only [encodeNode, bind_eq_ok, writeLen_eq_ok, pure_eq_ok, Except.ok.injEq] at hbytes
  obtain ⟨nextBytes, hnextBytes, count, ⟨hcount, rfl⟩, body, hbody, rfl⟩ := hbytes
  refine ⟨Nat.zero_lt_succ _, fun rest hlimit => ?_⟩
  obtain ⟨hlength, hmany⟩ := Inverts.many encodeEntries rfl encodeEntries_cons
    (fun entry hentry => inverts_entry limit (hids entry hentry)) hbody
  have hraw : ∃ raw, nextBytes = toBigEndian 8 raw ∧ raw < 2 ^ 64 ∧
      (if raw = noneNode then none else some raw) = next := by
    cases next with
    | none => exact ⟨noneNode, (Except.ok.inj hnextBytes).symm, by decide, if_pos rfl⟩
    | some number =>
        have hnumber := hnext number rfl
        rw [Option.elim_some, writeNumber_eq_ok] at hnextBytes
        have hne : number ≠ noneNode := by
          unfold noneNode
          omega
        exact ⟨number, hnextBytes.2.symm, hnextBytes.1, if_neg hne⟩
  obtain ⟨raw, rfl, hbound, hdecoded⟩ := hraw
  have hword (input : Bytes) : Cursor.u64 (toBigEndian 8 raw ++ input) = .ok (raw, input) :=
    word_append hbound input
  have hnumber : Cursor.count maxKeys (toBigEndian 4 entries.length ++ (body ++ rest)) =
      .ok (entries.length, body ++ rest) := by
    apply (count_append maxKeys hcount _).1 hentries
    rw [List.length_append]
    omega
  simp only [List.cons_append, List.append_assoc, List.length_cons] at hlimit ⊢
  have hshort : (body ++ rest).length ≤ limit := by
    simp only [List.length_append] at hlimit ⊢
    omega
  simp only [decodeNode, u8_cons, ok_bind, UInt8.reduceToNat, hword, hnumber, hdecoded]
  exact Decodes.congr ((hmany rest hshort).bind (q := True) (.of_ok rfl)) (and_iff_left trivial)

/-- So is an internal node. -/
theorem inverts_internal (limit : Nat) {keys : List IndexKey} {children : List Nat}
    (hvalid : (Node.internal keys children).Valid maxKeys size) :
    Inverts limit encodeNode (decodeNode maxKeys limit) (∀ key ∈ keys, key.Short)
      (.internal keys children) := by
  intro bytes hbytes
  obtain ⟨hkeys, hchildren, -, -⟩ := hvalid
  simp only [encodeNode, bind_eq_ok, writeLen_eq_ok, pure_eq_ok, Except.ok.injEq] at hbytes
  obtain ⟨keyCount, ⟨hkeyCount, rfl⟩, body, hbody, childCount, ⟨hchildCount, rfl⟩, numbers,
    hnumbers, rfl⟩ := hbytes
  refine ⟨Nat.zero_lt_succ _, fun rest hlimit => ?_⟩
  obtain ⟨hkeyLength, hmanyKeys⟩ :=
    Inverts.many encodeKeys rfl (fun _ _ => rfl) (fun key _ => inverts_key limit key) hbody
  obtain ⟨hchildLength, hmanyChildren⟩ :=
    Inverts.many writeNumbers rfl (fun _ _ => rfl) (fun child _ => inverts_number limit child)
      hnumbers
  simp only [List.cons_append, List.append_assoc, List.length_cons] at hlimit ⊢
  have hkeyNumber : Cursor.count maxKeys (toBigEndian 4 keys.length ++ (body ++
      (toBigEndian 4 children.length ++ (numbers ++ rest)))) =
      .ok (keys.length, body ++ (toBigEndian 4 children.length ++ (numbers ++ rest))) := by
    apply (count_append maxKeys hkeyCount _).1 hkeys
    rw [List.length_append]
    omega
  have hchildNumber : Cursor.count (maxKeys + 1)
      (toBigEndian 4 children.length ++ (numbers ++ rest)) =
      .ok (children.length, numbers ++ rest) := by
    apply (count_append (maxKeys + 1) hchildCount _).1 (by omega)
    rw [List.length_append]
    omega
  have hshort : (body ++ (toBigEndian 4 children.length ++ (numbers ++ rest))).length ≤ limit ∧
      (numbers ++ rest).length ≤ limit := by
    simp only [List.length_append] at hlimit ⊢
    omega
  have hchildrenRead := (hmanyChildren rest hshort.2).1 (fun _ _ => trivial)
  simp only [decodeNode, u8_cons, ok_bind, UInt8.reduceToNat, hkeyNumber]
  apply Decodes.congr ((hmanyKeys _ hshort.1).bind (q := True) (.of_ok ?_))
    (and_iff_left trivial)
  simp only [hchildNumber, ok_bind, hchildrenRead, pure_eq_ok]

/-- A node is read as it was written, if its keys are not too long. -/
theorem inverts_node (limit : Nat) (hsize : size < 2 ^ 64) {node : Node}
    (hvalid : node.Valid maxKeys size) :
    Inverts limit encodeNode (decodeNode maxKeys limit) (∀ key ∈ node.keys, key.Short) node := by
  cases node with
  | leaf entries next =>
      have hkeys : (∀ key ∈ (Node.leaf entries next).keys, key.Short) ↔
          ∀ entry ∈ entries, entry.1.Short := by
        simp [Node.keys]
      rw [hkeys]
      exact inverts_leaf limit hsize hvalid
  | internal keys children => exact inverts_internal limit hvalid

end Nodes

/-- A successful walk has marked `count` new nodes or more, and all of them are valid. -/
structure Marked (nodes : List Node) (maxKeys : Nat) (visited visited' : List Bool) (count : Nat) :
    Prop where
  length : visited'.length = visited.length
  fewer : visited'.count false + count ≤ visited.count false
  valid : ∀ i : Nat, visited'[i]? = some true → visited[i]? = some true ∨
    ∃ node, nodes[i]? = some node ∧ node.Valid maxKeys nodes.length

section Walk

variable {nodes : List Node} {maxKeys : Nat} {visited middle visited' : List Bool}

theorem Marked.trans {first second : Nat} (hfirst : Marked nodes maxKeys visited middle first)
    (hsecond : Marked nodes maxKeys middle visited' second) :
    Marked nodes maxKeys visited visited' (first + second) where
  length := hsecond.length.trans hfirst.length
  fewer := by
    have := hfirst.fewer
    have := hsecond.fewer
    omega
  valid i hi := by
    rcases hsecond.valid i hi with hmiddle | hnode
    · exact hfirst.valid i hmiddle
    · exact .inr hnode

/-- Marking a valid node. -/
theorem Marked.node {nodeId : Nat} {node : Node} (hfresh : visited[nodeId]? = some false)
    (hnode : nodes[nodeId]? = some node) (hvalid : node.Valid maxKeys nodes.length) :
    Marked nodes maxKeys visited (visited.set nodeId true) 1 where
  length := List.length_set
  fewer := (count_set_true hfresh).le
  valid i hi := by
    by_cases hsame : nodeId = i
    · subst hsame
      exact .inr ⟨node, hnode, hvalid⟩
    · rw [List.getElem?_set_ne hsame] at hi
      exact .inl hi

/-- Checking the children marks so many new nodes, and they are valid. -/
theorem marked_of_verifyChildren
    {visit : Nat → Option IndexKey → Option IndexKey → Visit → Partial Visit}
    {keys : List IndexKey} {lower upper : Option IndexKey}
    (hvisit : ∀ {child lower upper leafDepth visited leafDepth' visited'},
      visited.length = nodes.length →
      visit child lower upper (leafDepth, visited) = .ok (leafDepth', visited') →
      child < nodes.length ∧ Marked nodes maxKeys visited visited' 1)
    {rest : List Nat} {index : Nat} {leafDepth leafDepth' : Option Nat}
    (hlength : visited.length = nodes.length)
    (h : verifyChildren visit keys lower upper rest index (leafDepth, visited) =
      .ok (leafDepth', visited')) :
    (∀ child ∈ rest, child < nodes.length) ∧
      Marked nodes maxKeys visited visited' rest.length := by
  induction rest generalizing index leafDepth visited with
  | nil =>
      simp only [verifyChildren, pure_eq_ok, Except.ok.injEq, Prod.mk.injEq] at h
      obtain ⟨-, rfl⟩ := h
      exact ⟨by simp, rfl, le_rfl, fun i hi => .inl hi⟩
  | cons child rest ih =>
      simp only [verifyChildren, bind_eq_ok] at h
      obtain ⟨⟨middleDepth, middle⟩, hchild, hrest⟩ := h
      obtain ⟨hlt, hfirst⟩ := hvisit hlength hchild
      obtain ⟨hothers, hmarked⟩ := ih (hfirst.length.trans hlength) hrest
      refine ⟨List.forall_mem_cons.mpr ⟨hlt, hothers⟩, ?_⟩
      rw [List.length_cons, Nat.add_comm]
      exact hfirst.trans hmarked

/-- The walk of `verify` marks valid nodes. -/
theorem marked_of_verifyNode {rounds depth nodeId : Nat} {lower upper : Option IndexKey}
    {leafDepth leafDepth' : Option Nat} (hlength : visited.length = nodes.length)
    (h : verifyNode nodes maxKeys rounds depth nodeId lower upper (leafDepth, visited) =
      .ok (leafDepth', visited')) :
    nodeId < nodes.length ∧ Marked nodes maxKeys visited visited' 1 := by
  induction rounds generalizing depth nodeId lower upper leafDepth leafDepth' visited visited' with
  | zero => simp [verifyNode] at h
  | succ rounds ih =>
      simp only [verifyNode, bind_eq_ok, check_eq_ok] at h
      obtain ⟨-, ⟨hlt, hfresh⟩, node, hnode, h⟩ := h
      have hstored : nodes[nodeId]? = some node := indexed_eq_ok.mp hnode
      refine ⟨hlt, ?_⟩
      cases node with
      | leaf entries next =>
          simp only [bind_eq_ok, check_eq_ok, pure_eq_ok, Except.ok.injEq, Prod.mk.injEq] at h
          obtain ⟨-, hcapacity, -, hnext, -, -, _, hentries, -, -, -, rfl⟩ := h
          refine Marked.node hfresh hstored ⟨hcapacity, ?_, ?_⟩
          · rintro number rfl
            simpa using hnext
          · exact fun entry hentry => (sorted_of_verifyEntries hentries entry hentry).1
      | internal keys children =>
          simp only [bind_eq_ok, check_eq_ok] at h
          obtain ⟨-, ⟨-, hcapacity, hcount⟩, -, -, hchildren⟩ := h
          have hentered : (visited.set nodeId true).length = nodes.length :=
            List.length_set.trans hlength
          obtain ⟨hbounds, hmarked⟩ :=
            marked_of_verifyChildren (fun hvisited hvisit => ih hvisited hvisit) hentered hchildren
          have hfew : children.length ≤ nodes.length := by
            have hfewer := hmarked.fewer
            have htotal : (visited.set nodeId true).count false ≤
                (visited.set nodeId true).length := List.count_le_length
            omega
          have hvalid : (Node.internal keys children).Valid maxKeys nodes.length :=
            ⟨hcapacity, hcount, hfew, hbounds⟩
          have hboth := (Marked.node hfresh hstored hvalid).trans hmarked
          exact ⟨hboth.length, by have := hboth.fewer; omega, hboth.valid⟩

/-- Every node of a tree that passes verification is valid. -/
theorem valid_of_verify {tree : BPlusTree} {u : Unit} (h : tree.verify = .ok u) :
    validateMaxKeys tree.maxKeys = .ok () ∧ tree.root < tree.nodes.length ∧
      ∀ node ∈ tree.nodes, node.Valid tree.maxKeys tree.nodes.length := by
  simp only [BPlusTree.verify, bind_eq_ok, check_eq_ok] at h
  obtain ⟨-, ⟨-, hroot⟩, h⟩ := h
  split at h
  · simp at h
  rename_i value hmax
  simp only [bind_eq_ok, check_eq_ok] at h
  obtain ⟨⟨depth, visited⟩, hnodes, -, hall, -⟩ := h
  obtain ⟨-, hmarked⟩ := marked_of_verifyNode List.length_replicate hnodes
  refine ⟨hmax, hroot, fun node hnode => ?_⟩
  obtain ⟨i, hi, rfl⟩ := List.mem_iff_getElem.mp hnode
  have hlt : i < visited.length := by
    rw [hmarked.length, List.length_replicate]
    exact hi
  have htrue : visited[i]? = some true := by
    rw [List.getElem?_eq_getElem hlt]
    exact congrArg some (List.all_eq_true.mp hall _ (List.getElem_mem hlt))
  rcases hmarked.valid i htrue with hbefore | ⟨found, hfound, hvalid⟩
  · simp [List.getElem?_replicate] at hbefore
  · rw [List.getElem?_eq_getElem hi] at hfound
    exact Option.some.inj hfound ▸ hvalid

end Walk

/-- A snapshot with its checksum. -/
def framed (maxKeys root count checksum : Nat) (body : Bytes) : Bytes :=
  magic ++ (toBigEndian 2 version ++ (toBigEndian 2 headerSize ++ (toBigEndian 4 maxKeys ++
    (toBigEndian 4 0 ++ (toBigEndian 8 root ++ (toBigEndian 8 count ++ (toBigEndian 4 checksum ++
      (toBigEndian 4 0 ++ body))))))))

section Trees

variable {maxKeys root : Nat} {nodes : List Node} {bytes : Bytes}

theorem length_framed (maxKeys root count checksum : Nat) (body : Bytes) :
    (framed maxKeys root count checksum body).length = headerSize + body.length := by
  simp [framed, magic, headerSize]
  omega

/-- A snapshot is a header and the bytes of the nodes. -/
theorem encodeTree_eq_framed (h : encodeTree maxKeys root nodes = .ok bytes) :
    maxKeys ≤ u32Max ∧ root < 2 ^ 64 ∧ nodes.length < 2 ^ 64 ∧
      ∃ body, encodeNodes nodes = .ok body ∧
        bytes = framed maxKeys root nodes.length (crc32WithZeroedChecksum bytes).toNat body := by
  simp only [encodeTree, bind_eq_ok, writeLen_eq_ok, writeNumber_eq_ok, pure_eq_ok,
    Except.ok.injEq] at h
  obtain ⟨capacity, ⟨hmax, rfl⟩, rootBytes, ⟨hroot, rfl⟩, count, ⟨hcount, rfl⟩, body, hbody,
    hbytes⟩ := h
  refine ⟨hmax, hroot, hcount, body, hbody, ?_⟩
  have hzeroed : magic ++ (toBigEndian 2 version ++ (toBigEndian 2 headerSize ++
      (toBigEndian 4 maxKeys ++ (toBigEndian 4 0 ++ (toBigEndian 8 root ++
        (toBigEndian 8 nodes.length ++ (toBigEndian 4 0 ++ (toBigEndian 4 0 ++ body)))))))) =
      framed maxKeys root nodes.length 0 body := rfl
  rw [hzeroed] at hbytes
  have hlength := length_framed maxKeys root nodes.length 0 body
  have hchecksum : crc32WithZeroedChecksum bytes =
      crc32WithZeroedChecksum (framed maxKeys root nodes.length 0 body) := by
    rw [← hbytes]
    apply congrArg fun message => ~~~Checksum.register _ _ message
    apply Checksum.mask_splice (by simp)
    rw [hlength]
    simp only [checksumOffset, headerSize]
    omega
  have hsplit (checksum : Nat) : framed maxKeys root nodes.length checksum body =
      (magic ++ (toBigEndian 2 version ++ (toBigEndian 2 headerSize ++ (toBigEndian 4 maxKeys ++
        (toBigEndian 4 0 ++ (toBigEndian 8 root ++ toBigEndian 8 nodes.length)))))) ++
        (toBigEndian 4 checksum ++ (toBigEndian 4 0 ++ body)) := by
    simp only [framed, List.append_assoc]
  rw [hchecksum, hsplit, ← hbytes, hsplit 0]
  exact splice_middle _ _ _ _ (by simp [checksumOffset, magic]) (by simp)

/-- A snapshot of a tree with valid nodes is read back exactly when its string keys are short. -/
theorem decodes_encodeTree (hmax : validateMaxKeys maxKeys = .ok ()) (hne : nodes ≠ [])
    (hvalid : ∀ node ∈ nodes, node.Valid maxKeys nodes.length)
    (h : encodeTree maxKeys root nodes = .ok bytes) :
    Decodes (decodeTree bytes) (maxKeys, root, nodes)
      (∀ node ∈ nodes, ∀ key ∈ node.keys, key.Short) := by
  obtain ⟨hcapacity, hroot, hcount, body, hbody, hbytes⟩ := encodeTree_eq_framed h
  obtain ⟨hlength, hmany⟩ := Inverts.many encodeNodes rfl (fun _ _ => rfl)
    (fun node hnode => inverts_node bytes.length hcount (hvalid node hnode)) hbody
  have hchecksum : (crc32WithZeroedChecksum bytes).toNat < 256 ^ 4 :=
    (crc32WithZeroedChecksum bytes).isLt
  have htotal : bytes.length = headerSize + body.length := by
    rw [hbytes]
    exact length_framed ..
  obtain ⟨checksum, hsum⟩ : ∃ checksum, checksum = (crc32WithZeroedChecksum bytes).toNat := ⟨_, rfl⟩
  rw [← hsum] at hbytes hchecksum
  have hheader : headerSize ≤ bytes.length := by omega
  have hmagic : bytes.take 4 = magic := by
    rw [hbytes]
    rfl
  have hcapacity : maxKeys < 256 ^ 4 := Nat.lt_of_le_of_lt hcapacity (by decide)
  have hnodes : nodes.length ≠ 0 ∧ nodes.length ≤ bytes.length - headerSize := by
    constructor
    · exact fun hzero => hne (List.eq_nil_of_length_eq_zero hzero)
    · omega
  have hroot : root < 256 ^ 8 := Nat.lt_of_lt_of_eq hroot (by decide)
  have hcount : nodes.length < 256 ^ 8 := Nat.lt_of_lt_of_eq hcount (by decide)
  have hstart : Cursor.take 4 bytes = .ok (magic, bytes.drop 4) := by
    have hfour : 4 ≤ bytes.length := by
      unfold headerSize at hheader
      omega
    simp [Cursor.take, require_of _ hfour, hmagic]
  have hdrop : bytes.drop 4 = toBigEndian 2 version ++ (toBigEndian 2 headerSize ++
      (toBigEndian 4 maxKeys ++ (toBigEndian 4 0 ++ (toBigEndian 8 root ++
        (toBigEndian 8 nodes.length ++
          (toBigEndian 4 checksum ++ (toBigEndian 4 0 ++ body))))))) := by
    rw [hbytes]
    rfl
  have hversion : version < 256 ^ 2 := by decide
  have hsize : headerSize < 256 ^ 2 := by decide
  have hzero : 0 < 256 ^ 4 := by decide
  have hrest := hmany [] (by rw [List.append_nil]; omega)
  rw [List.append_nil] at hrest
  rw [decodeTree, require_of _ hheader, ok_bind, require_of _ hmagic, ok_bind, hstart, ok_bind,
    hdrop]
  simp only [Cursor.u16, Cursor.u32, Cursor.u64, ok_bind, word_append hversion, word_append hsize,
    word_append hzero, word_append hcapacity, word_append hroot, word_append hcount,
    word_append hchecksum, require_of _ trivial, hmax, require_of _ hsum, require_of _ hnodes]
  apply Decodes.congr (hrest.bind (q := True) (.of_ok ?_)) (and_iff_left trivial)
  rfl

end Trees

/-- The ids under each key of the node can be counted in four bytes. -/
def Node.Countable : Node → Prop
  | .leaf entries _ => ∀ entry ∈ entries, entry.2.length ≤ u32Max
  | .internal _ _ => True

instance Node.Countable.decidable : DecidablePred Node.Countable
  | .leaf entries _ => inferInstanceAs (Decidable (∀ entry ∈ entries, entry.2.length ≤ u32Max))
  | .internal _ _ => .isTrue trivial

section Encoding

/-- A list is written if each of its elements is. -/
theorem encodes_many {α : Type} {encode : α → Result Bytes} (encodeAll : List α → Result Bytes)
    (hnil : encodeAll [] = .ok [])
    (hcons : ∀ a rest, encodeAll (a :: rest) = do
      let first ← encode a
      let others ← encodeAll rest
      return first ++ others)
    {xs : List α} (h : ∀ a ∈ xs, ∃ bytes, encode a = .ok bytes) :
    ∃ bytes, encodeAll xs = .ok bytes := by
  induction xs with
  | nil => exact ⟨[], hnil⟩
  | cons a xs ih =>
      obtain ⟨first, hfirst⟩ := h a List.mem_cons_self
      obtain ⟨others, hothers⟩ := ih fun b hb => h b (List.mem_cons_of_mem _ hb)
      exact ⟨first ++ others, by rw [hcons, hfirst, ok_bind, hothers]; rfl⟩

theorem encodes_key {key : IndexKey} (hshort : key.Short) : ∃ bytes, encodeKey key = .ok bytes := by
  cases key with
  | string value =>
      have hlength : (utf8 value).length ≤ u32Max := Nat.le_trans hshort (by decide)
      exact ⟨_, by simp only [encodeKey, writeLen_eq_ok.mpr ⟨hlength, rfl⟩, ok_bind]; rfl⟩
  | int64 value => exact ⟨_, rfl⟩
  | float64 value => exact ⟨_, rfl⟩
  | novaId value => exact ⟨_, rfl⟩

/-- A node can be written when its counts fit and its keys are not too long. -/
theorem encodes_node {maxKeys size : Nat} {node : Node} (hmax : maxKeys ≤ u32Max)
    (hsize : size ≤ u32Max) (hvalid : node.Valid maxKeys size) (hcountable : node.Countable)
    (hshort : ∀ key ∈ node.keys, key.Short) : ∃ bytes, encodeNode node = .ok bytes := by
  have hnumber {number : Nat} (hlt : number < size) : ∃ bytes, writeNumber number = .ok bytes := by
    have hbound : number < 2 ^ 64 :=
      Nat.lt_of_lt_of_le (Nat.lt_of_lt_of_le hlt hsize) (by decide)
    exact ⟨_, writeNumber_eq_ok.mpr ⟨hbound, rfl⟩⟩
  cases node with
  | leaf entries next =>
      obtain ⟨hentries, hnext, -⟩ := hvalid
      have hnextBytes : ∃ bytes, next.elim (.ok (toBigEndian 8 noneNode)) writeNumber =
          .ok bytes := by
        cases next with
        | none => exact ⟨_, rfl⟩
        | some number => exact hnumber (hnext number rfl)
      obtain ⟨nextBytes, hnextBytes⟩ := hnextBytes
      obtain ⟨body, hbody⟩ : ∃ bytes, encodeEntries entries = .ok bytes := by
        apply encodes_many encodeEntries rfl encodeEntries_cons
        intro entry hentry
        obtain ⟨key, hkey⟩ := encodes_key (hshort entry.1 (List.mem_map_of_mem hentry))
        have hcount := writeLen_eq_ok.mpr ⟨hcountable entry hentry, rfl⟩
        exact ⟨_, by simp only [encodeEntry, hkey, hcount, ok_bind]; rfl⟩
      have hcount := writeLen_eq_ok.mpr ⟨Nat.le_trans hentries hmax, rfl⟩
      exact ⟨_, by simp only [encodeNode, hnextBytes, hcount, hbody, ok_bind]; rfl⟩
  | internal keys children =>
      obtain ⟨hkeys, -, hfew, hchildren⟩ := hvalid
      obtain ⟨body, hbody⟩ : ∃ bytes, encodeKeys keys = .ok bytes :=
        encodes_many encodeKeys rfl (fun _ _ => rfl) fun key hkey => encodes_key (hshort key hkey)
      obtain ⟨numbers, hnumbers⟩ : ∃ bytes, writeNumbers children = .ok bytes :=
        encodes_many writeNumbers rfl (fun _ _ => rfl) fun child hchild =>
          hnumber (hchildren child hchild)
      have hkeyCount := writeLen_eq_ok.mpr ⟨Nat.le_trans hkeys hmax, rfl⟩
      have hchildCount := writeLen_eq_ok.mpr ⟨Nat.le_trans hfew hsize, rfl⟩
      exact ⟨_, by simp only [encodeNode, hkeyCount, hbody, hchildCount, hnumbers, ok_bind]; rfl⟩

/-- So can a tree that passes the check. -/
theorem encodes_tree {tree : BPlusTree} (hverify : tree.verify = .ok ())
    (hsize : tree.nodes.length ≤ u32Max)
    (hcountable : ∀ node ∈ tree.nodes, node.Countable)
    (hshort : ∀ node ∈ tree.nodes, ∀ key ∈ node.keys, key.Short) :
    ∃ bytes, encodeTree tree.maxKeys tree.root tree.nodes = .ok bytes := by
  obtain ⟨hmax, hroot, hvalid⟩ := valid_of_verify hverify
  have hcapacity : tree.maxKeys ≤ u32Max := (require_eq_ok.mp hmax).2.2
  obtain ⟨body, hbody⟩ : ∃ bytes, encodeNodes tree.nodes = .ok bytes :=
    encodes_many encodeNodes rfl (fun _ _ => rfl) fun node hnode =>
      encodes_node hcapacity hsize (hvalid node hnode) (hcountable node hnode) (hshort node hnode)
  have hcount := writeLen_eq_ok.mpr ⟨hcapacity, rfl⟩
  have hrootBytes := writeNumber_eq_ok.mpr
    ⟨Nat.lt_trans (Nat.lt_of_lt_of_le hroot hsize) (by decide), rfl⟩
  have hsizeBytes := writeNumber_eq_ok.mpr ⟨Nat.lt_of_le_of_lt hsize (by decide), rfl⟩
  exact ⟨_, by simp only [encodeTree, hcount, hrootBytes, hsizeBytes, hbody, ok_bind]; rfl⟩

end Encoding

end NovaBase.Index
