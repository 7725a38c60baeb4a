import NovaBase.Index.CatalogFiles
import NovaBase.Lib.Prefixes

/-!
# Torn files

A snapshot or a definition of which only a front was written is never read: its fields would have
to be the same as those of the whole, and then there would have to be more of them.
-/

namespace NovaBase.Index

open Lib Lib.Bytes

section Snapshots

/-- A condition that stays true when more follows. -/
theorem extends_require {α : Type} {condition condition' : Bytes → Prop}
    [∀ input, Decidable (condition input)] [∀ input, Decidable (condition' input)]
    {cause cause' : NovaError} {next next' : Bytes → Result (α × Bytes)}
    (hcondition : ∀ input tail, condition input → condition' (input ++ tail))
    (h : Extends next next') :
    Extends (fun input => require (condition input) cause >>= fun _ => next input)
      fun input => require (condition' input) cause' >>= fun _ => next' input := by
  intro input a rest tail hread
  obtain ⟨_, hholds, hnext⟩ := bind_eq_ok.mp hread
  dsimp only
  rw [require_of _ (hcondition input tail (require_eq_ok.mp hholds)), ok_bind]
  exact h input a rest tail hnext

theorem extends_take (length : Nat) : Extends (Cursor.take length) (Cursor.take length) := by
  intro input bytes rest tail h
  simp only [Cursor.take, bind_eq_ok, require_eq_ok, pure_eq_ok, Except.ok.injEq,
    Prod.mk.injEq] at h
  obtain ⟨-, hlength, rfl, rfl⟩ := h
  have hlong : length ≤ (input ++ tail).length := by
    rw [List.length_append]
    omega
  rw [Cursor.take, require_of _ hlong, ok_bind, List.take_append_of_le_length hlength,
    List.drop_append_of_le_length hlength]
  rfl

theorem extends_word (width : Nat) : Extends (Cursor.word width) (Cursor.word width) :=
  (extends_take width).bind fun bytes => .pure (fromBigEndian bytes)

theorem extends_count {small large : Nat} (h : small ≤ large) :
    Extends (Cursor.count small) (Cursor.count large) := by
  apply (extends_word 4).bind
  intro count
  apply extends_require
  · rintro input tail ⟨hsmall, hlength⟩
    rw [List.length_append]
    omega
  · exact .pure count

/-- Reading several things from a longer input gives the same. -/
theorem extends_decodeMany {α : Type} {decode decode' : Bytes → Result (α × Bytes)}
    (h : Extends decode decode') (count : Nat) :
    Extends (decodeMany decode count) (decodeMany decode' count) := by
  induction count with
  | zero => exact .pure []
  | succ count ih =>
      apply h.bind
      intro first
      exact ih.bind fun others => .pure (first :: others)

theorem extends_decodeId : Extends decodeId decodeId := by
  apply (extends_take novaIdLength).bind
  intro bytes
  dsimp only
  cases NovaId.fromBytes bytes with
  | some id => exact .pure id
  | none => exact .fail _

theorem extends_decodeKey : Extends decodeKey decodeKey := by
  apply (extends_word 1).bind
  intro tag
  match tag with
  | 0 => exact (extends_word 8).bind fun word => .pure (IndexKey.int64 (UInt64.ofNat word).toInt64)
  | 1 => exact (extends_word 8).bind fun word => .pure (IndexKey.float64 (.new ⟨UInt64.ofNat word⟩))
  | 2 =>
      apply (extends_count le_rfl).bind
      intro length
      apply (extends_take length).bind
      intro bytes
      dsimp only
      cases String.fromUTF8? ⟨bytes.toArray⟩ with
      | some text => exact .pure (IndexKey.string text)
      | none => exact .fail _
  | 3 => exact extends_decodeId.bind fun id => .pure (IndexKey.novaId id)
  | _ + 4 => exact .fail _

theorem extends_decodeEntry {small large : Nat} (h : small ≤ large) :
    Extends (decodeEntry small) (decodeEntry large) := by
  apply extends_decodeKey.bind
  intro key
  apply (extends_count (Nat.div_le_div_right h)).bind
  intro idCount
  apply extends_require
  · exact fun _ _ hne => hne
  · exact (extends_decodeMany extends_decodeId idCount).bind fun ids => .pure (key, ids)

/-- A node that is read is read from a longer input as well. -/
theorem extends_decodeNode (maxKeys : Nat) {small large : Nat} (h : small ≤ large) :
    Extends (decodeNode maxKeys small) (decodeNode maxKeys large) := by
  apply (extends_word 1).bind
  intro tag
  match tag with
  | 0 =>
      apply (extends_word 8).bind
      intro rawNext
      apply (extends_count le_rfl).bind
      intro entryCount
      exact (extends_decodeMany (extends_decodeEntry h) entryCount).bind fun entries =>
        .pure (Node.leaf entries _)
  | 1 =>
      apply (extends_count le_rfl).bind
      intro keyCount
      apply (extends_decodeMany extends_decodeKey keyCount).bind
      intro keys
      apply (extends_count le_rfl).bind
      intro childCount
      exact (extends_decodeMany (extends_word 8) childCount).bind fun children =>
        .pure (Node.internal keys children)
  | _ + 2 => exact .fail _

/-- Cutting a snapshot behind its header cuts the bytes of the nodes. -/
theorem take_framed {maxKeys root count checksum length : Nat} {body : Bytes}
    (h : headerSize ≤ length) : (framed maxKeys root count checksum body).take length =
      framed maxKeys root count checksum (body.take (length - headerSize)) := by
  have hsplit : ∀ body, framed maxKeys root count checksum body =
      framed maxKeys root count checksum [] ++ body := by
    intro body
    simp only [framed, List.append_assoc, List.append_nil]
  have hlength : (framed maxKeys root count checksum []).length = headerSize := by
    rw [length_framed, List.length_nil]
    rfl
  rw [hsplit body, hsplit (body.take _), List.take_append, hlength,
    List.take_of_length_le (hlength.trans_le h)]

/-- What is read from a file with the header of a snapshot is read from the bytes behind it. -/
theorem decodeMany_of_decodeTree {maxKeys root count checksum : Nat} {body : Bytes}
    (hmax : validateMaxKeys maxKeys = .ok ()) (hcapacity : maxKeys < 256 ^ 4)
    (hroot : root < 256 ^ 8) (hcount : count < 256 ^ 8) (hchecksum : checksum < 256 ^ 4)
    {tree : Nat × Nat × List Node}
    (h : decodeTree (framed maxKeys root count checksum body) = .ok tree) :
    ∃ nodes, decodeMany (decodeNode maxKeys (headerSize + body.length)) count body =
      .ok (nodes, []) := by
  have hlength := length_framed maxKeys root count checksum body
  have hheader : headerSize ≤ (framed maxKeys root count checksum body).length := by omega
  have hmagic : (framed maxKeys root count checksum body).take 4 = magic := rfl
  have hfour : 4 ≤ (framed maxKeys root count checksum body).length := by
    unfold headerSize at hheader
    omega
  have hstart : Cursor.take 4 (framed maxKeys root count checksum body) =
      .ok (magic, (framed maxKeys root count checksum body).drop 4) := by
    simp [Cursor.take, require_of _ hfour, hmagic]
  have hdrop : (framed maxKeys root count checksum body).drop 4 = toBigEndian 2 version ++
      (toBigEndian 2 headerSize ++ (toBigEndian 4 maxKeys ++ (toBigEndian 4 0 ++
        (toBigEndian 8 root ++ (toBigEndian 8 count ++ (toBigEndian 4 checksum ++
          (toBigEndian 4 0 ++ body))))))) := rfl
  have hversion : version < 256 ^ 2 := by decide
  have hsize : headerSize < 256 ^ 2 := by decide
  have hzero : 0 < 256 ^ 4 := by decide
  rw [decodeTree, require_of _ hheader, ok_bind, require_of _ hmagic, ok_bind, hstart, ok_bind,
    hdrop] at h
  simp only [Cursor.u16, Cursor.u32, Cursor.u64, ok_bind, word_append hversion, word_append hsize,
    word_append hzero, word_append hcapacity, word_append hroot, word_append hcount,
    word_append hchecksum, require_of _ trivial, hmax, hlength] at h
  obtain ⟨_, -, h⟩ := bind_eq_ok.mp h
  obtain ⟨_, -, h⟩ := bind_eq_ok.mp h
  obtain ⟨_, -, h⟩ := bind_eq_ok.mp h
  obtain ⟨⟨nodes, rest⟩, hnodes, h⟩ := bind_eq_ok.mp h
  obtain ⟨_, hrest, -⟩ := bind_eq_ok.mp h
  exact ⟨nodes, require_eq_ok.mp hrest ▸ hnodes⟩

end Snapshots

section Definitions

theorem extends_metaTake (length : Nat) :
    Extends (MetaCursor.take length) (MetaCursor.take length) := by
  intro input bytes rest tail h
  simp only [MetaCursor.take, bind_eq_ok, require_eq_ok, pure_eq_ok, Except.ok.injEq,
    Prod.mk.injEq] at h
  obtain ⟨-, hlength, rfl, rfl⟩ := h
  have hlong : length ≤ (input ++ tail).length := by
    rw [List.length_append]
    omega
  rw [MetaCursor.take, require_of _ hlong, ok_bind, List.take_append_of_le_length hlength,
    List.drop_append_of_le_length hlength]
  rfl

theorem extends_metaWord (width : Nat) :
    Extends (MetaCursor.word width) (MetaCursor.word width) :=
  (extends_metaTake width).bind fun bytes => .pure (fromBigEndian bytes)

theorem extends_text : Extends MetaCursor.text MetaCursor.text := by
  apply (extends_metaWord 4).bind
  intro length
  apply extends_require
  · intro input tail hlength
    rw [List.length_append]
    omega
  · apply (extends_metaTake length).bind
    intro bytes
    dsimp only
    cases String.fromUTF8? ⟨bytes.toArray⟩ with
    | some text => exact .pure text
    | none => exact .fail _

/-- The fields of a definition, in front of its checksum. -/
def readFields (input : Bytes) : Result (IndexDefinition × Bytes) := do
  let (_, input) ← MetaCursor.take 4 input
  let (found, input) ← MetaCursor.u16 input
  require (found = metaVersion) (NovaError.unsupported s!"index metadata version {found}")
  let (name, input) ← MetaCursor.text input
  let (collection, input) ← MetaCursor.text input
  let (count, input) ← MetaCursor.u32 input
  require (count ≠ 0 ∧ count ≤ input.length) (NovaError.corruption "impossible index field count")
  let (field, input) ← decodeMany MetaCursor.text count input
  return (⟨name, collection, field⟩, input)

theorem extends_readFields : Extends readFields readFields := by
  apply (extends_metaTake 4).bind
  intro _
  apply (extends_metaWord 2).bind
  intro found
  apply extends_require (fun _ _ hfound => hfound)
  apply extends_text.bind
  intro name
  apply extends_text.bind
  intro collection
  apply (extends_metaWord 4).bind
  intro count
  apply extends_require
  · rintro input tail ⟨hne, hlength⟩
    rw [List.length_append]
    exact ⟨hne, by omega⟩
  · exact (extends_decodeMany extends_text count).bind fun field =>
      .pure (IndexDefinition.mk name collection field)

theorem readFields_of_decodeDefinition {bytes : Bytes} {definition : IndexDefinition}
    (h : decodeDefinition bytes = .ok definition) :
    10 ≤ bytes.length ∧ readFields (bytes.take (bytes.length - 4)) = .ok (definition, []) := by
  simp only [decodeDefinition, bind_eq_ok, require_eq_ok, pure_eq_ok] at h
  obtain ⟨_, ⟨hten, -⟩, _, -, ⟨first, afterMagic⟩, hfirst, ⟨found, afterVersion⟩, hfound, _,
    hversion, ⟨name, afterName⟩, hname, ⟨collection, afterCollection⟩, hcollection,
    ⟨count, afterCount⟩, hcount, _, hcounted, ⟨field, rest⟩, hfield, _, hrest, hreturn⟩ := h
  obtain rfl := Except.ok.inj hreturn
  obtain rfl : rest = [] := hrest
  refine ⟨hten, ?_⟩
  simp only [readFields, hfirst, ok_bind, hfound, require_of _ hversion, hname, hcollection,
    hcount, require_of _ hcounted, hfield, pure_eq_ok]

/-- A definition of which only a front was written is not read. -/
theorem decodeDefinition_take {definition : IndexDefinition} {bytes : Bytes} {length : Nat}
    (hfield : definition.field ≠ []) (hencode : encodeDefinition definition = .ok bytes)
    (hlength : length < bytes.length) :
    ∃ cause, decodeDefinition (bytes.take length) = .error cause := by
  cases hread : decodeDefinition (bytes.take length) with
  | error cause => exact ⟨cause, rfl⟩
  | ok found =>
      exfalso
      obtain ⟨-, hwhole⟩ :=
        readFields_of_decodeDefinition (decodeDefinition_encodeDefinition hfield hencode)
      obtain ⟨hten, hfront⟩ := readFields_of_decodeDefinition hread
      have htake : (bytes.take length).length = length := List.length_take_of_le hlength.le
      rw [htake] at hten
      rw [htake, List.take_take, Nat.min_eq_left (Nat.sub_le length 4)] at hfront
      have hsplit : bytes.take (length - 4) ++
          (bytes.take (bytes.length - 4)).drop (length - 4) = bytes.take (bytes.length - 4) := by
        have hmin : min (length - 4) (bytes.length - 4) = length - 4 := by omega
        calc
          _ = (bytes.take (bytes.length - 4)).take (length - 4) ++
              (bytes.take (bytes.length - 4)).drop (length - 4) := by
            rw [List.take_take, hmin]
          _ = _ := List.take_append_drop _ _
      have hlong := extends_readFields _ _ _ ((bytes.take (bytes.length - 4)).drop (length - 4))
        hfront
      rw [hsplit, hwhole, List.nil_append] at hlong
      have hempty := congrArg List.length (Prod.mk.inj (Except.ok.inj hlong)).2
      rw [List.length_drop, List.length_take, List.length_nil] at hempty
      omega

end Definitions

section Trees

variable {maxKeys root : Nat} {nodes : List Node} {bytes : Bytes} {length : Nat}

/-- A snapshot of which only a front was written is not read. -/
theorem decodeTree_take (hmax : validateMaxKeys maxKeys = .ok ())
    (hvalid : ∀ node ∈ nodes, node.Valid maxKeys nodes.length)
    (hencode : encodeTree maxKeys root nodes = .ok bytes) (hlength : length < bytes.length) :
    ∃ cause, decodeTree (bytes.take length) = .error cause := by
  cases hread : decodeTree (bytes.take length) with
  | error cause => exact ⟨cause, rfl⟩
  | ok tree =>
      exfalso
      obtain ⟨hcapacity, hroot, hcount, body, hbody, hbytes⟩ := encodeTree_eq_framed hencode
      have hchecksum : (crc32WithZeroedChecksum bytes).toNat < 256 ^ 4 :=
        (crc32WithZeroedChecksum bytes).isLt
      have htotal : bytes.length = headerSize + body.length := by
        rw [hbytes]
        exact length_framed ..
      have hheader : headerSize ≤ length := by
        simp only [decodeTree, bind_eq_ok, require_eq_ok] at hread
        obtain ⟨_, hheader, -⟩ := hread
        rwa [List.length_take_of_le hlength.le] at hheader
      -- The front is a snapshot with the same header and a front of the nodes.
      have hfront : bytes.take length = framed maxKeys root nodes.length
          (crc32WithZeroedChecksum bytes).toNat (body.take (length - headerSize)) := by
        rw [← take_framed hheader, ← hbytes]
      rw [hfront] at hread
      obtain ⟨found, hfound⟩ := decodeMany_of_decodeTree hmax
        (Nat.lt_of_le_of_lt hcapacity (by decide)) (Nat.lt_of_lt_of_eq hroot (by decide))
        (Nat.lt_of_lt_of_eq hcount (by decide)) hchecksum hread
      have hsmall : headerSize + (body.take (length - headerSize)).length ≤ bytes.length := by
        rw [List.length_take]
        omega
      have hlong := extends_decodeMany (extends_decodeNode maxKeys hsmall) nodes.length _ _ _
        (body.drop (length - headerSize)) hfound
      rw [List.take_append_drop, List.nil_append] at hlong
      obtain ⟨-, hmany⟩ := Inverts.many encodeNodes rfl (fun _ _ => rfl)
        (fun node hnode => inverts_node bytes.length hcount (hvalid node hnode)) hbody
      have hwhole := hmany [] (by rw [List.append_nil]; omega)
      rw [List.append_nil, hlong] at hwhole
      by_cases hshort : ∀ node ∈ nodes, ∀ key ∈ node.keys, key.Short
      · have hempty := congrArg List.length (Prod.mk.inj (Except.ok.inj (hwhole.1 hshort))).2
        rw [List.length_drop, List.length_nil] at hempty
        omega
      · obtain ⟨cause, hcause⟩ := hwhole.2 hshort
        cases hcause

end Trees

end NovaBase.Index
