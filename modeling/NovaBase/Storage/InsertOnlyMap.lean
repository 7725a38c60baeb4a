import NovaBase.Lib.Run
import NovaBase.Nbf.RoundTrip
import NovaBase.Storage.Engine
import NovaBase.Storage.PageHistory

/-!
# The engine as an insert-only map

`Stored` relates an engine to the documents inserted so far: every record in a
page is the encoding of one of them, and the directory knows the place of each.
Insertions keep it, and so does the scan that rebuilds the directory when the
page file is opened again, whether or not it was shut down.
-/

namespace NovaBase.Storage

open Lib Lib.Bytes Nbf

/-- The record at a location. -/
def At (contents : List Page) (location : Location) (bytes : Bytes) : Prop :=
  ∃ page, contents[location.page.toNat]? = some page ∧ page.get location.slot = some bytes

/-- The pages hold the encodings of the documents and nothing else, and the directory knows where
each of them is. -/
structure Stored (engine : StorageEngine) (documents : List Document) (contents : List Page) :
    Prop where
  holds : engine.pages.HoldsPages contents
  located : ∀ id location, engine.locations.get id = some location →
    ∃ document ∈ documents, document.id = id ∧
      ∃ bytes, encode document = .ok bytes ∧ At contents location bytes
  entered : ∀ location bytes, At contents location bytes →
    ∃ document ∈ documents, encode document = .ok bytes ∧
      engine.locations.get document.id = some location
  known : ∀ document ∈ documents, ∃ location, engine.locations.get document.id = some location
  wellFormed : ∀ document ∈ documents, Document.WellFormed document
  distinct : (documents.map DocumentOf.id).Nodup
  count : engine.len = documents.length

/-- What has been inserted under an id, as it is read back. -/
def lookup (documents : List Document) (id : NovaId) : Option Document :=
  (documents.find? fun document => document.id = id).map canonical

/-- A document can be inserted after others: its id is new, and its encoding fits an empty page. -/
def Insertable (documents : List Document) (document : Document) : Prop :=
  (∀ other ∈ documents, other.id ≠ document.id) ∧
    ∃ bytes, encode document = .ok bytes ∧ bytes.length ≤ StorageEngine.emptyPageCapacity

/-- The page ids of a file are the places of its pages. -/
theorem PageManager.HoldsPages.mem_pageIds {pages : PageManager} {contents : List Page}
    (h : pages.HoldsPages contents) {id : PageId} :
    id ∈ pageIds pages.pageCount ↔ id.toNat < contents.length := by
  have hsmall := h.holds.count_lt
  rw [h.count] at hsmall
  simp only [pageIds, h.count, List.mem_map, List.mem_range]
  constructor
  · rintro ⟨n, hn, rfl⟩
    rwa [UInt64.toNat_ofNat', Nat.mod_eq_of_lt (by omega)]
  · exact fun hlt => ⟨id.toNat, hlt, UInt64.ofNat_toNat⟩

theorem PageManager.HoldsPages.nodup_pageIds {pages : PageManager} {contents : List Page}
    (h : pages.HoldsPages contents) : (pageIds pages.pageCount).Nodup := by
  have hsmall := h.holds.count_lt
  refine List.Nodup.map_on (fun m hm n hn heq => ?_) List.nodup_range
  rw [List.mem_range] at hm hn
  have hnumbers := congrArg UInt64.toNat heq
  rwa [UInt64.toNat_ofNat', UInt64.toNat_ofNat', Nat.mod_eq_of_lt (by omega),
    Nat.mod_eq_of_lt (by omega)] at hnumbers

section Encoding

variable {document : Document} {bytes : Bytes}

theorem encode_ne_nil (h : encode document = .ok bytes) : bytes ≠ [] := by
  obtain ⟨stream, -, hbytes⟩ := bind_eq_ok.mp h
  obtain rfl := Except.ok.inj hbytes
  simp [magic]

/-- A record of a page is shorter than the page. -/
theorem At.length_lt {contents : List Page} (hfits : ∀ page ∈ contents, page.Fits)
    {location : Location} (h : At contents location bytes) : bytes.length < 2 ^ 64 := by
  obtain ⟨page, hpage, hget⟩ := h
  have hpageFits := hfits page (List.mem_of_getElem? hpage)
  have hslot : some bytes ∈ page.slots := by
    rw [Page.get, Option.join_eq_some_iff] at hget
    exact List.mem_of_getElem? hget
  have hpayload : bytes.length ≤ (Page.payload page.slots).length := by
    obtain ⟨before, after, hsplit⟩ := List.append_of_mem hslot
    rw [hsplit, Page.length_payload_append, Page.payload, List.length_append]
    omega
  rw [Page.Fits] at hpageFits
  simp only [pageSize] at hpageFits
  omega

end Encoding

namespace Stored

variable {engine : StorageEngine} {documents : List Document} {contents : List Page}

/-- A stored record decodes to its document. -/
theorem decodes (h : Stored engine documents contents) {document : Document}
    (hdocument : document ∈ documents) {bytes : Bytes} (hbytes : encode document = .ok bytes)
    {location : Location} (hat : At contents location bytes) :
    decode bytes = .ok (canonical document) := by
  obtain ⟨stream, hstream, hlength, rfl⟩ := encode_eq_ok hbytes
  exact decode_stream (h.wellFormed document hdocument) hstream
    (hlength.trans_lt (hat.length_lt h.holds.fits))

/-- A location belongs to one id. -/
theorem location_unique (h : Stored engine documents contents) {id other : NovaId}
    {location : Location} (hid : engine.locations.get id = some location)
    (hother : engine.locations.get other = some location) : id = other := by
  obtain ⟨document, hdocument, rfl, bytes, hbytes, hat⟩ := h.located id location hid
  obtain ⟨another, hanother, rfl, bytes', hbytes', hat'⟩ := h.located other location hother
  obtain ⟨page, hpage, hget⟩ := id hat
  obtain ⟨page', hpage', hget'⟩ := id hat'
  obtain rfl := Option.some.inj (hpage.symm.trans hpage')
  obtain rfl := Option.some.inj (hget.symm.trans hget')
  have heq : canonical document = canonical another :=
    Except.ok.inj ((h.decodes hdocument hbytes hat).symm.trans (h.decodes hanother hbytes' hat'))
  rw [← canonical_id document, heq, canonical_id]

theorem find?_eq_some (h : Stored engine documents contents) {document : Document}
    (hdocument : document ∈ documents) :
    documents.find? (fun other => other.id = document.id) = some document := by
  obtain ⟨found, hfound⟩ : ∃ found,
      documents.find? (fun other => other.id = document.id) = some found := by
    rw [← Option.isSome_iff_exists, List.find?_isSome]
    exact ⟨document, hdocument, by simp⟩
  have hid : found.id = document.id := by simpa using List.find?_some hfound
  have hmem := List.mem_of_find?_eq_some hfound
  rw [hfound, List.inj_on_of_nodup_map h.distinct hmem hdocument hid]

/-- Reading a document gives what was inserted under its id, and changes nothing. -/
theorem get (h : Stored engine documents contents) (id : NovaId) :
    ∃ next, engine.get id = (.ok (lookup documents id), next) ∧ Stored next documents contents ∧
      next.locations = engine.locations ∧ next.pages.file.bytes = engine.pages.file.bytes := by
  rw [StorageEngine.get]
  cases hlocation : engine.locations.get id with
  | none =>
      have hnone : lookup documents id = none := by
        rw [lookup, Option.map_eq_none_iff, List.find?_eq_none]
        intro document hdocument
        obtain ⟨location, hsome⟩ := h.known document hdocument
        have hne : document.id ≠ id := by
          rintro rfl
          simp [hlocation] at hsome
        simpa using hne
      exact ⟨engine, by rw [hnone], h, rfl, rfl⟩
  | some location =>
      obtain ⟨document, hdocument, rfl, bytes, hbytes, hat⟩ := h.located id location hlocation
      have hdecode := h.decodes hdocument hbytes hat
      obtain ⟨page, hpage, hget⟩ := hat
      obtain ⟨pages, hread, hpages, hsame⟩ := h.holds.read hpage
      have hfound : lookup documents document.id = some (canonical document) := by
        rw [lookup, h.find?_eq_some hdocument]
        rfl
      have hid := canonical_id document
      refine ⟨{ engine with pages := pages }, ?_, ⟨hpages, h.located, h.entered, h.known,
        h.wellFormed, h.distinct, h.count⟩, rfl, hsame⟩
      simp only [hread, hget, hdecode, ok_bind, hid, require_of _ trivial, hfound, pure_eq_ok]

/-- A new page holds no record yet. -/
theorem at_new {id : PageId} {location : Location} {bytes : Bytes} :
    At (contents ++ [Page.new id]) location bytes ↔ At contents location bytes := by
  constructor
  · rintro ⟨page, hpage, hget⟩
    rcases Nat.lt_or_ge location.page.toNat contents.length with hlt | hge
    · rw [List.getElem?_append_left hlt] at hpage
      exact ⟨page, hpage, hget⟩
    · rw [List.getElem?_append_right hge, List.getElem?_singleton,
        Option.ite_none_right_eq_some] at hpage
      obtain ⟨-, hnew⟩ := hpage
      obtain rfl := Option.some.inj hnew
      simp [Page.get, Page.new] at hget
  · rintro ⟨page, hpage, hget⟩
    have hlt := (List.getElem?_eq_some_iff.mp hpage).1
    exact ⟨page, by rw [List.getElem?_append_left hlt, hpage], hget⟩

/-- Where records are after one page has got a new record. -/
theorem at_set {page next : Page} {pageId : PageId} (hpage : contents[pageId.toNat]? = some page)
    {slot : SlotId} {record : Bytes}
    (hnext : next.get = Function.update page.get slot (some record))
    (hfree : page.get slot = none) {location : Location} {bytes : Bytes} :
    At (contents.set pageId.toNat next) location bytes ↔
      location = ⟨pageId, slot⟩ ∧ bytes = record ∨ At contents location bytes := by
  have hlt := (List.getElem?_eq_some_iff.mp hpage).1
  obtain ⟨otherId, other⟩ := location
  by_cases hid : otherId = pageId
  · subst hid
    have hset : (contents.set otherId.toNat next)[otherId.toNat]? = some next := by
      rw [List.getElem?_set_self hlt]
    simp only [At, hset, hpage, Option.some.injEq, exists_eq_left', hnext, Location.mk.injEq,
      true_and]
    by_cases hother : other = slot
    · subst hother
      simp [hfree, eq_comm]
    · rw [Function.update_of_ne hother]
      simp [hother]
  · have hne : pageId.toNat ≠ otherId.toNat := fun heq => hid (UInt64.toNat_inj.mp heq).symm
    simp only [At, List.getElem?_set_ne hne, Location.mk.injEq, hid, false_and, false_or]

/-- A record put into a page with room for it. -/
theorem insertInto (h : Stored engine documents contents) {document : Document}
    (hdocument : Document.WellFormed document) {encoded : Bytes}
    (hencoded : encode document = .ok encoded)
    (hnew : engine.locations.get document.id = none) {pageId : PageId} {page : Page}
    (hpage : contents[pageId.toNat]? = some page) (hspace : encoded.length ≤ page.freeSpace) :
    ∃ next contents', engine.insertInto .complete document.id encoded pageId page =
      (.ok document.id, next) ∧ Stored next (documents ++ [document]) contents' := by
  have hpageFits := h.holds.fits page (List.mem_of_getElem? hpage)
  have hpageId := h.holds.ids pageId.toNat page hpage
  obtain ⟨slot, filled, hinsert, hfits, hfilledId, hfree, hget⟩ :=
    hpageFits.insert_ok hspace (encode_ne_nil hencoded)
  have hlt := (List.getElem?_eq_some_iff.mp hpage).1
  obtain ⟨pages, hwrite, hpages⟩ := h.holds.write hfits (by rw [hfilledId, hpageId]; exact hlt)
  rw [hfilledId, hpageId] at hpages
  have hat : ∀ {location bytes}, At (contents.set pageId.toNat filled) location bytes ↔
      location = ⟨pageId, slot⟩ ∧ bytes = encoded ∨ At contents location bytes :=
    fun {location bytes} => at_set hpage hget hfree
  have hother : ∀ other ∈ documents, document.id ≠ other.id := by
    intro other hmem heq
    obtain ⟨location, hlocation⟩ := h.known other hmem
    rw [← heq, hnew] at hlocation
    simp at hlocation
  refine ⟨⟨pages, engine.locations.insert document.id ⟨pageId, slot⟩⟩, _, ?_, hpages, ?_, ?_, ?_,
    ?_, ?_, ?_⟩
  · simp only [StorageEngine.insertInto, hinsert, hwrite]
  · intro id location hlocation
    rcases SortedMap.get_insert_eq_some.mp hlocation with ⟨heq, rfl⟩ | ⟨-, hlocated⟩
    · exact ⟨document, by simp, heq, encoded, hencoded, hat.mpr (.inl ⟨rfl, rfl⟩)⟩
    · obtain ⟨found, hfound, hid, bytes, hbytes, hold⟩ := h.located id location hlocated
      exact ⟨found, List.mem_append_left _ hfound, hid, bytes, hbytes, hat.mpr (.inr hold)⟩
  · intro location bytes hlocation
    rcases hat.mp hlocation with ⟨rfl, rfl⟩ | hold
    · exact ⟨document, by simp, hencoded, by simp⟩
    · obtain ⟨found, hfound, hbytes, hget⟩ := h.entered location bytes hold
      refine ⟨found, List.mem_append_left _ hfound, hbytes, ?_⟩
      rw [SortedMap.get_insert, if_neg (hother found hfound), hget]
  · intro found hfound
    rw [SortedMap.get_insert]
    split
    · exact ⟨_, rfl⟩
    · rename_i hne
      rcases List.mem_append.mp hfound with hold | hlast
      · exact h.known found hold
      · exact absurd (congrArg DocumentOf.id (List.mem_singleton.mp hlast)).symm hne
  · intro found hfound
    rcases List.mem_append.mp hfound with hold | hlast
    · exact h.wellFormed found hold
    · exact List.mem_singleton.mp hlast ▸ hdocument
  · rw [List.map_append, List.map_singleton]
    refine List.nodup_append.mpr ⟨h.distinct, List.nodup_singleton _, ?_⟩
    intro id hid other hmem
    obtain ⟨found, hfound, rfl⟩ := List.mem_map.mp hid
    exact List.mem_singleton.mp hmem ▸ (hother found hfound).symm
  · have hlength : (engine.locations.insert document.id ⟨pageId, slot⟩).entries.length =
        engine.locations.entries.length + 1 := Entries.length_insert _ hnew
    rw [StorageEngine.len, hlength, List.length_append, List.length_singleton]
    exact congrArg (· + 1) h.count

/-- The scan for room either stores the record in a page that has it or finds none. -/
theorem insertFirst (h : Stored engine documents contents) {document : Document}
    (hdocument : Document.WellFormed document) {encoded : Bytes}
    (hencoded : encode document = .ok encoded)
    (hnew : engine.locations.get document.id = none) {ids : List PageId}
    (hids : ∀ id ∈ ids, id.toNat < contents.length) :
    (∃ next contents', engine.insertFirst .complete document.id encoded ids =
        (some (.ok document.id), next) ∧ Stored next (documents ++ [document]) contents') ∨
      ∃ next, engine.insertFirst .complete document.id encoded ids = (none, next) ∧
        Stored next documents contents ∧ next.locations = engine.locations := by
  induction ids generalizing engine with
  | nil => exact .inr ⟨engine, rfl, h, rfl⟩
  | cons id ids ih =>
      obtain ⟨hid, hrest⟩ := List.forall_mem_cons.mp hids
      have hpage : contents[id.toNat]? = some contents[id.toNat] := List.getElem?_eq_getElem hid
      obtain ⟨pages, hread, hpages, -⟩ := h.holds.read hpage
      have hstored : Stored { engine with pages := pages } documents contents :=
        ⟨hpages, h.located, h.entered, h.known, h.wellFormed, h.distinct, h.count⟩
      simp only [StorageEngine.insertFirst, hread]
      split
      · rename_i hspace
        obtain ⟨next, contents', hinsert, hnext⟩ :=
          hstored.insertInto hdocument hencoded hnew hpage hspace
        exact .inl ⟨next, contents', by rw [hinsert], hnext⟩
      · exact ih hstored hnew hrest

theorem freeSpace_new (id : PageId) : (Page.new id).freeSpace = StorageEngine.emptyPageCapacity :=
  rfl

/-- A record that fits an empty page goes into a new one, if the file can grow. -/
theorem insertNew (h : Stored engine documents contents) {document : Document}
    (hdocument : Document.WellFormed document) {encoded : Bytes}
    (hencoded : encode document = .ok encoded)
    (hnew : engine.locations.get document.id = none)
    (hfits : encoded.length ≤ StorageEngine.emptyPageCapacity) :
    (∃ next contents', engine.insertNew .perfect document.id encoded =
        (.ok document.id, next) ∧ Stored next (documents ++ [document]) contents') ∨
      ∃ next, engine.insertNew .perfect document.id encoded = (.error .io, next) ∧
        maxFileLength < (contents.length + 1) * pageSize := by
  simp only [StorageEngine.insertNew, InsertIo.perfect]
  rcases h.holds.allocate with ⟨pages, hallocate, hpages, hnumber⟩ | ⟨pages, hallocate, hfull⟩
  · have hpage : (contents ++ [Page.new (UInt64.ofNat contents.length)])[
        (UInt64.ofNat contents.length).toNat]? =
          some (Page.new (UInt64.ofNat contents.length)) := by
      rw [hnumber]
      simp
    obtain ⟨pages', hread, hpages', -⟩ := hpages.read hpage
    have hstored : Stored { engine with pages := pages' } documents
        (contents ++ [Page.new (UInt64.ofNat contents.length)]) := by
      refine ⟨hpages', fun id location hlocation => ?_, fun location bytes hat =>
        h.entered location bytes (at_new.mp hat), h.known, h.wellFormed, h.distinct, h.count⟩
      obtain ⟨found, hfound, hid, bytes, hbytes, hat⟩ := h.located id location hlocation
      exact ⟨found, hfound, hid, bytes, hbytes, at_new.mpr hat⟩
    obtain ⟨next, contents', hinsert, hnext⟩ :=
      hstored.insertInto hdocument hencoded hnew hpage (freeSpace_new _ ▸ hfits)
    exact .inl ⟨next, contents', by rw [hallocate]; simp only [hread, hinsert], hnext⟩
  · exact .inr ⟨_, by rw [hallocate], hfull⟩

theorem locations_eq_none (h : Stored engine documents contents) {id : NovaId} :
    engine.locations.get id = none ↔ ∀ document ∈ documents, document.id ≠ id := by
  constructor
  · rintro hnone document hdocument rfl
    obtain ⟨location, hlocation⟩ := h.known document hdocument
    simp [hnone] at hlocation
  · intro hall
    by_contra hsome
    obtain ⟨location, hlocation⟩ := Option.ne_none_iff_exists'.mp hsome
    obtain ⟨document, hdocument, hid, -⟩ := h.located id location hlocation
    exact hall document hdocument hid

/-- An insertion stores an insertable document, refuses any other one without effect, or finds no
room in the file. -/
theorem insert (h : Stored engine documents contents) {document : Document}
    (hdocument : Document.WellFormed document) :
    (∃ next contents', engine.insert .perfect document = (.ok document.id, next) ∧
        Insertable documents document ∧ Stored next (documents ++ [document]) contents') ∨
      (∃ cause, engine.insert .perfect document = (.error cause, engine) ∧
        ¬Insertable documents document) ∨
      ∃ next, engine.insert .perfect document = (.error .io, next) ∧
        maxFileLength < (contents.length + 1) * pageSize := by
  simp only [StorageEngine.insert]
  by_cases hknown : engine.locations.contains document.id
  · refine .inr (.inl ⟨_, if_pos hknown, fun hinsertable => ?_⟩)
    rw [SortedMap.contains, h.locations_eq_none.mpr hinsertable.1] at hknown
    simp at hknown
  · have hnew : engine.locations.get document.id = none := by
      simpa [SortedMap.contains] using hknown
    rw [if_neg hknown]
    cases hencoded : encode document with
    | error cause =>
        refine .inr (.inl ⟨cause, rfl, fun hinsertable => ?_⟩)
        obtain ⟨bytes, hbytes, -⟩ := hinsertable.2
        simp [hencoded] at hbytes
    | ok encoded =>
        dsimp only
        by_cases hlarge : StorageEngine.emptyPageCapacity < encoded.length
        · refine .inr (.inl ⟨_, if_pos hlarge, fun hinsertable => ?_⟩)
          obtain ⟨bytes, hbytes, hle⟩ := hinsertable.2
          obtain rfl := Except.ok.inj (hencoded.symm.trans hbytes)
          omega
        · have hfits := not_lt.mp hlarge
          have hinsertable : Insertable documents document :=
            ⟨h.locations_eq_none.mp hnew, encoded, hencoded, hfits⟩
          rw [if_neg hlarge]
          rcases h.insertFirst hdocument hencoded hnew
              (fun id hid => h.holds.mem_pageIds.mp hid) with
            ⟨next, contents', hinsert, hnext⟩ | ⟨next, hinsert, hnext, hsame⟩
          · exact .inl ⟨next, contents', by rw [InsertIo.perfect, hinsert], hinsertable, hnext⟩
          · rcases hnext.insertNew hdocument hencoded (hsame ▸ hnew) hfits with
              ⟨last, contents', hlast, hstored⟩ | ⟨last, hlast, hfull⟩
            · exact .inl ⟨last, contents', by rw [InsertIo.perfect, hinsert]; exact hlast,
                hinsertable, hstored⟩
            · exact .inr (.inr ⟨last, by rw [InsertIo.perfect, hinsert]; exact hlast, hfull⟩)

end Stored

/-- A directory that knows of another one what lies at certain places. -/
def Covers (full part : SortedMap NovaId Location) (scanned : Location → Prop) : Prop :=
  ∀ id location, part.get id = some location ↔ full.get id = some location ∧ scanned location

/-- Scanning records enters their locations. -/
theorem scanRecords_covers {full part : SortedMap NovaId Location}
    (hunique : ∀ id other location, full.get id = some location →
      full.get other = some location → id = other) {page : PageId}
    {records : List (SlotId × Bytes)}
    (hrecords : ∀ slot bytes, (slot, bytes) ∈ records → ∃ document, decode bytes = .ok document ∧
      full.get document.id = some ⟨page, slot⟩)
    (hnodup : (records.map Prod.fst).Nodup) {scanned : Location → Prop}
    (hpart : Covers full part scanned)
    (hfresh : ∀ slot ∈ records.map Prod.fst, ¬scanned ⟨page, slot⟩) :
    ∃ next, StorageEngine.scanRecords page records part = .ok next ∧
      Covers full next fun location => scanned location ∨
        location.page = page ∧ location.slot ∈ records.map Prod.fst := by
  induction records generalizing part scanned with
  | nil => exact ⟨part, rfl, by simpa [Covers] using hpart⟩
  | cons record records ih =>
      obtain ⟨slot, bytes⟩ := record
      obtain ⟨hhead, hnodup⟩ := List.nodup_cons.mp hnodup
      obtain ⟨document, hdecode, hlocation⟩ := hrecords slot bytes List.mem_cons_self
      have hnone : part.get document.id = none := by
        by_contra hsome
        obtain ⟨location, hget⟩ := Option.ne_none_iff_exists'.mp hsome
        obtain ⟨hfull, hscanned⟩ := (hpart document.id location).mp hget
        obtain rfl := Option.some.inj (hlocation.symm.trans hfull)
        exact hfresh slot (by simp) hscanned
      have hentered : Covers full (part.insert document.id ⟨page, slot⟩) fun location =>
          scanned location ∨ location = ⟨page, slot⟩ := by
        intro id location
        rw [SortedMap.get_insert]
        split
        · rename_i heq
          subst heq
          rw [hlocation]
          constructor
          · exact fun hsame => ⟨hsame, .inr (Option.some.inj hsame).symm⟩
          · exact fun hfull => hfull.1
        · rename_i hne
          rw [hpart]
          refine ⟨fun hfull => ⟨hfull.1, .inl hfull.2⟩, fun hfull => ⟨hfull.1, ?_⟩⟩
          refine hfull.2.resolve_right fun hsame => hne ?_
          exact hunique document.id id _ hlocation (hsame ▸ hfull.1)
      obtain ⟨next, hscan, hnext⟩ := ih
        (fun other bytes hmem => hrecords other bytes (List.mem_cons_of_mem _ hmem)) hnodup hentered
        (by
          rintro other hmem (hscanned | hsame)
          · exact hfresh other (List.mem_cons_of_mem _ hmem) hscanned
          · obtain rfl := (Location.mk.inj hsame).2
            exact hhead hmem)
      refine ⟨next, ?_, fun id location => (hnext id location).trans (and_congr_right fun _ => ?_)⟩
      · simp only [StorageEngine.scanRecords, hdecode, ok_bind, hnone, require_of _ trivial, hscan]
      · obtain ⟨otherPage, other⟩ := location
        simp only [Location.mk.injEq, List.map_cons, List.mem_cons]
        grind

namespace Stored

variable {engine : StorageEngine} {documents : List Document} {contents : List Page}

/-- Scanning pages enters the locations in them. -/
theorem scanPages_covers (h : Stored engine documents contents) {pages : PageManager}
    (hpages : pages.HoldsPages contents) {ids : List PageId}
    (hids : ∀ id ∈ ids, id.toNat < contents.length) (hnodup : ids.Nodup)
    {part : SortedMap NovaId Location} {scanned : Location → Prop}
    (hpart : Covers engine.locations part scanned)
    (hfresh : ∀ location, location.page ∈ ids → ¬scanned location) :
    ∃ pages' next, StorageEngine.scanPages ids pages part = .ok (pages', next) ∧
      pages'.HoldsPages contents ∧ pages'.file.bytes = pages.file.bytes ∧
      Covers engine.locations next fun location => scanned location ∨ location.page ∈ ids := by
  induction ids generalizing pages part scanned with
  | nil => exact ⟨pages, part, rfl, hpages, rfl, by simpa [Covers] using hpart⟩
  | cons id ids ih =>
      obtain ⟨hid, hrest⟩ := List.forall_mem_cons.mp hids
      obtain ⟨hhead, hnodup⟩ := List.nodup_cons.mp hnodup
      have hpage : contents[id.toNat]? = some contents[id.toNat] := List.getElem?_eq_getElem hid
      obtain ⟨pages', hread, hpages', hsame⟩ := hpages.read hpage
      have hrecords : ∀ slot bytes, (slot, bytes) ∈ contents[id.toNat].records →
          ∃ document, decode bytes = .ok document ∧
            engine.locations.get document.id = some ⟨id, slot⟩ := by
        intro slot bytes hmem
        have hat : At contents ⟨id, slot⟩ bytes := ⟨_, hpage, Page.mem_records.mp hmem⟩
        obtain ⟨document, hdocument, hbytes, hlocation⟩ := h.entered _ bytes hat
        exact ⟨canonical document, h.decodes hdocument hbytes hat, by rwa [canonical_id]⟩
      obtain ⟨middle, hscan, hmiddle⟩ := scanRecords_covers
        (fun _ _ _ hid hother => h.location_unique hid hother) hrecords (Page.nodup_records _) hpart
        (fun slot _ => hfresh ⟨id, slot⟩ List.mem_cons_self)
      have hpageCovers : Covers engine.locations middle fun location =>
          scanned location ∨ location.page = id := by
        refine fun key location => (hmiddle key location).trans (and_congr_right fun hkey => ?_)
        refine or_congr_right (and_iff_left_of_imp fun hsame => ?_)
        obtain ⟨document, hdocument, -, bytes, -, page, hat, hget⟩ := h.located key location hkey
        rw [hsame, hpage] at hat
        obtain rfl := Option.some.inj hat
        exact List.mem_map.mpr ⟨(location.slot, bytes), Page.mem_records.mpr hget, rfl⟩
      obtain ⟨last, next, hscanRest, hlast, hlastSame, hnext⟩ := ih hpages' hrest hnodup hpageCovers
        (by
          rintro location hmem (hscanned | rfl)
          · exact hfresh location (List.mem_cons_of_mem _ hmem) hscanned
          · exact hhead hmem)
      refine ⟨last, next, ?_, hlast, hlastSame.trans hsame, fun key location =>
        (hnext key location).trans (and_congr_right fun _ => ?_)⟩
      · simp only [StorageEngine.scanPages, hread, hscan, ok_bind, hscanRest]
      · simp only [List.mem_cons]
        grind

/-- Opening the page file again rebuilds the directory. -/
theorem reopen (h : Stored engine documents contents) (cursor synced : Nat) :
    ∃ next, StorageEngine.openFile
        { engine.pages.file with cursor := cursor, synced := synced } = .ok next ∧
      Stored next documents contents ∧ next.locations = engine.locations := by
  obtain ⟨pages, hopen, hpages, hsame⟩ := h.holds.openFile cursor synced
  have hempty : Covers engine.locations .empty fun _ => False := fun id location => by simp
  obtain ⟨last, next, hscan, hlast, hlastSame, hcovers⟩ :=
    h.scanPages_covers hpages (fun id hid => hpages.mem_pageIds.mp hid) hpages.nodup_pageIds hempty
      fun _ _ => id
  obtain rfl : next = engine.locations := by
    ext id location
    rw [hcovers]
    refine and_iff_left_of_imp fun hlocation => .inr ?_
    obtain ⟨document, -, -, bytes, -, page, hpage, -⟩ := h.located id location hlocation
    exact hpages.mem_pageIds.mpr (List.getElem?_eq_some_iff.mp hpage).1
  refine ⟨⟨last, engine.locations⟩, ?_, ⟨hlast, h.located, h.entered, h.known, h.wellFormed,
    h.distinct, h.count⟩, rfl⟩
  simp only [StorageEngine.openFile, hopen, ok_bind, hscan, pure_eq_ok]

end Stored

/-- The engine of an empty page file. -/
def StorageEngine.fresh : StorageEngine := ⟨⟨⟨[], 0, 0⟩, 0⟩, .empty⟩

theorem Stored.fresh : Stored .fresh [] [] := by
  refine ⟨⟨⟨Blocks.nil pageSize, rfl, Nat.zero_le _⟩, by simp, by simp⟩,
    by simp [StorageEngine.fresh], fun location bytes hat => ?_, by simp, by simp, List.nodup_nil,
    rfl⟩
  obtain ⟨page, hpage, -⟩ := hat
  simp at hpage

/-- A document as the program has it, its maps in key order. -/
structure SortedDocument where
  document : Document
  wellFormed : Document.WellFormed document

/-- The page file, in use or not. -/
inductive Store
  | closed (file : File)
  | opened (engine : StorageEngine)

/-- What can be done with a store. -/
inductive StoreCall
  | insert (document : SortedDocument)
  | get (id : NovaId)
  | shutdown
  | reopen

namespace Store

/-- The page file of a store, as another process finds it. -/
def file : Store → File
  | .closed file => file
  | .opened engine => engine.pages.file

/-- One call with I/O succeeding. Reopening also ends an engine that was not shut down. The
documents are those inserted so far. -/
def step : Store × List Document → StoreCall → Option (Store × List Document)
  | (.opened engine, documents), .insert document =>
      match engine.insert .perfect document.document with
      | (.error .io, _) => none
      | (.error _, engine) => some (.opened engine, documents)
      | (.ok _, engine) => some (.opened engine, documents ++ [document.document])
  | (.opened engine, documents), .get id => some (.opened (engine.get id).2, documents)
  | (.opened engine, documents), .shutdown => some (.closed engine.shutdown, documents)
  | (store, documents), .reopen =>
      match StorageEngine.openFile store.file with
      | .error _ => none
      | .ok engine => some (.opened engine, documents)
  | _, _ => none

theorem step_insert {engine next : StorageEngine} {documents : List Document}
    {document : SortedDocument} {id : NovaId}
    (h : engine.insert .perfect document.document = (.ok id, next)) :
    step (.opened engine, documents) (.insert document) =
      some (.opened next, documents ++ [document.document]) := by
  simp only [step, h]

/-- A store that the file can be opened to: it is one, or would be one. -/
def Keeps (store : Store) (documents : List Document) : Prop :=
  ∃ engine contents cursor synced, Stored engine documents contents ∧
    (store = .opened engine ∨
      store = .closed { engine.pages.file with cursor := cursor, synced := synced })

theorem Keeps.start : Keeps (.closed ⟨[], 0, 0⟩) [] :=
  ⟨.fresh, [], 0, 0, .fresh, .inr rfl⟩

/-- Opening the file gives an engine with the same documents. -/
theorem Keeps.opens {store : Store} {documents : List Document} (h : Keeps store documents) :
    ∃ engine contents, StorageEngine.openFile store.file = .ok engine ∧
      Stored engine documents contents := by
  obtain ⟨engine, contents, cursor, synced, hstored, rfl | rfl⟩ := h
  · obtain ⟨next, hopen, hnext, -⟩ :=
      hstored.reopen engine.pages.file.cursor engine.pages.file.synced
    exact ⟨next, contents, hopen, hnext⟩
  · obtain ⟨next, hopen, hnext, -⟩ := hstored.reopen cursor synced
    exact ⟨next, contents, hopen, hnext⟩

theorem Keeps.step {state next : Store × List Document} {call : StoreCall}
    (h : Keeps state.1 state.2) (hstep : Store.step state call = some next) :
    Keeps next.1 next.2 := by
  obtain ⟨store, documents⟩ := state
  have hreopen : call = .reopen → Keeps next.1 next.2 := by
    rintro rfl
    obtain ⟨engine, contents, hopen, hstored⟩ := h.opens
    obtain rfl : (.opened engine, documents) = next := by
      cases store <;> simpa only [Store.step, hopen, Option.some.injEq] using hstep
    exact ⟨engine, contents, 0, 0, hstored, .inl rfl⟩
  obtain ⟨engine, contents, cursor, synced, hstored, rfl | rfl⟩ := h
  · cases call with
    | insert document =>
        rcases hstored.insert document.wellFormed with
          ⟨last, contents', hinsert, -, hlast⟩ | ⟨cause, hinsert, -⟩ | ⟨last, hinsert, -⟩
        · obtain rfl := Option.some.inj ((step_insert hinsert).symm.trans hstep)
          exact ⟨last, contents', 0, 0, hlast, .inl rfl⟩
        · have hnext : (.opened engine, documents) = next := by
            cases cause <;> simp_all [Store.step]
          exact hnext ▸ ⟨engine, contents, 0, 0, hstored, .inl rfl⟩
        · simp [Store.step, hinsert] at hstep
    | get id =>
        obtain ⟨last, hget, hlast, -⟩ := hstored.get id
        obtain rfl := by simpa only [Store.step, hget, Option.some.injEq] using hstep
        exact ⟨last, contents, 0, 0, hlast, .inl rfl⟩
    | shutdown =>
        obtain rfl := by simpa only [Store.step, Option.some.injEq] using hstep
        exact ⟨engine, contents, _, _, hstored, .inr rfl⟩
    | reopen => exact hreopen rfl
  · cases call with
    | reopen => exact hreopen rfl
    | _ => simp [Store.step] at hstep

end Store

/-- Take any insertions, reads, shutdowns and reopenings of a store that starts on an empty page
file, and the documents that were inserted with success. The file opens again, to an engine of the
same size with the same documents. An open engine has as many documents as were inserted, and
reads under each id the first one inserted, or none; it inserts a document exactly if its id is
new and its encoding fits an empty page, and refuses any other one without effect. -/
theorem engine_is_insert_only_map {calls : List StoreCall} {store : Store}
    {documents : List Document}
    (hrun : run Store.step calls (.closed ⟨[], 0, 0⟩, []) = some (store, documents)) :
    (∃ engine, StorageEngine.openFile store.file = .ok engine ∧ engine.len = documents.length ∧
      ∀ id, (engine.get id).1 = .ok (lookup documents id)) ∧
    ∀ engine, store = .opened engine → engine.len = documents.length ∧
      (∀ id, (engine.get id).1 = .ok (lookup documents id)) ∧
      ∀ document result next, Document.WellFormed document →
        engine.insert .perfect document = (result, next) → result ≠ .error .io →
        (result = .ok document.id ↔ Insertable documents document) ∧
        (result = .ok document.id ∨ ∃ cause, result = .error cause ∧ next.len = engine.len ∧
          (∀ id, (next.get id).1 = (engine.get id).1) ∧
          next.pages.file.bytes = engine.pages.file.bytes) := by
  have hkeeps : Store.Keeps store documents := by
    have hlast : Store.Keeps (store, documents).1 (store, documents).2 :=
      run_invariant Store.Keeps.step Store.Keeps.start hrun
    exact hlast
  have hreads : ∀ {engine contents}, Stored engine documents contents → ∀ id,
      (engine.get id).1 = .ok (lookup documents id) := by
    intro engine contents hstored id
    obtain ⟨next, hget, -⟩ := hstored.get id
    rw [hget]
  constructor
  · obtain ⟨engine, contents, hopen, hstored⟩ := hkeeps.opens
    exact ⟨engine, hopen, hstored.count, hreads hstored⟩
  · rintro engine rfl
    obtain ⟨found, contents, cursor, synced, hstored, hsame | hclosed⟩ := hkeeps
    · obtain rfl := Store.opened.inj hsame
      refine ⟨hstored.count, hreads hstored, fun document result next hdocument hinsert hio => ?_⟩
      rcases hstored.insert hdocument with
        ⟨last, contents', hcase, hinsertable, -⟩ | ⟨cause, hcase, hrefused⟩ | ⟨last, hcase, -⟩
      · obtain ⟨rfl, rfl⟩ := Prod.mk.inj (hinsert.symm.trans hcase)
        exact ⟨iff_of_true rfl hinsertable, .inl rfl⟩
      · obtain ⟨rfl, rfl⟩ := Prod.mk.inj (hinsert.symm.trans hcase)
        exact ⟨iff_of_false (by simp) hrefused, .inr ⟨cause, rfl, rfl, fun _ => rfl, rfl⟩⟩
      · exact absurd (Prod.mk.inj (hinsert.symm.trans hcase)).1 hio
    · simp at hclosed

/-- A small document, and its way through a store that is restarted. -/
def sampleDocument : SortedDocument where
  document := ⟨.filled 7, [("a", .null)]⟩
  wellFormed := Document.wellFormed_iff.mpr
    ⟨List.pairwise_singleton _ _, by simp [NovaValue.WellFormed]⟩

theorem engine_after_restart : ∃ store,
    run Store.step [.reopen, .insert sampleDocument, .shutdown, .reopen]
      (.closed ⟨[], 0, 0⟩, []) = some (store, [sampleDocument.document]) ∧
    ∃ engine, StorageEngine.openFile store.file = .ok engine ∧ engine.len = 1 ∧
      (engine.get sampleDocument.document.id).1 =
        .ok (lookup [sampleDocument.document] sampleDocument.document.id) := by
  obtain ⟨engine, contents, hinsert, hstored⟩ : ∃ engine contents,
      StorageEngine.fresh.insert .perfect sampleDocument.document =
        (.ok sampleDocument.document.id, engine) ∧
      Stored engine [sampleDocument.document] contents := by
    rcases Stored.fresh.insert sampleDocument.wellFormed with
      ⟨engine, contents, hinsert, -, hstored⟩ | ⟨cause, -, hrefused⟩ | ⟨next, -, hfull⟩
    · exact ⟨engine, contents, hinsert, hstored⟩
    · exact absurd ⟨by simp, _, rfl, by decide +kernel⟩ hrefused
    · exact absurd hfull (by decide)
  obtain ⟨last, hopen, -⟩ :=
    hstored.reopen engine.pages.file.cursor engine.pages.file.bytes.length
  have hrun : run Store.step [.reopen, .insert sampleDocument, .shutdown, .reopen]
      (.closed ⟨[], 0, 0⟩, []) = some (.opened last, [sampleDocument.document]) := by
    have hfirst : Store.step (.closed ⟨[], 0, 0⟩, []) .reopen = some (.opened .fresh, []) := rfl
    have hsecond : Store.step (.opened .fresh, []) (.insert sampleDocument) =
        some (.opened engine, [sampleDocument.document]) := Store.step_insert hinsert
    have hlast : Store.step (.closed engine.shutdown, [sampleDocument.document]) .reopen =
        some (.opened last, [sampleDocument.document]) := by
      have hfile : engine.shutdown = { engine.pages.file with
          cursor := engine.pages.file.cursor, synced := engine.pages.file.bytes.length } := rfl
      rw [← hfile] at hopen
      simp only [Store.step, Store.file, hopen]
    exact run_cons.mpr ⟨_, hfirst, run_cons.mpr ⟨_, hsecond, run_cons.mpr ⟨_, rfl,
      run_cons.mpr ⟨_, hlast, rfl⟩⟩⟩⟩
  obtain ⟨⟨final, hfinal, hlen, hget⟩, -⟩ := engine_is_insert_only_map hrun
  exact ⟨_, hrun, final, hfinal, hlen, hget _⟩

end NovaBase.Storage
