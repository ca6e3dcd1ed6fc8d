import ItemMapper.Payload.Response
import ItemMapper.Payload.Failure
import ItemMapper.Proofs.ExactCodecs

/-!
# Payloads and their texts

Every payload of the operations on items is read back from its JSON, with the order of its maps and lists. What a payload
leaves out, an empty map or an option without a value, is what the reader fills in, and an item that is there without
attributes stays apart from one that is absent. A payload is well formed if its maps have no key twice, its counts are
of 32 bits and its estimates are finite.

Each record is read member by member, in the order of its codec, and a member asks for its own part of this.
-/

namespace ItemMapper

open RecordReader (reads_make)

theorem ReturnValue.codec_exact : (Codec.named ReturnValue).Exact fun _ => True := .named fun x => by cases x <;> rfl

theorem CapacityReport.codec_exact : (Codec.named CapacityReport).Exact fun _ => True :=
  .named fun x => by cases x <;> rfl

theorem MetricsReport.codec_exact : (Codec.named MetricsReport).Exact fun _ => True :=
  .named fun x => by cases x <;> rfl

theorem OnCheckFailure.codec_exact : (Codec.named OnCheckFailure).Exact fun _ => True :=
  .named fun x => by cases x <;> rfl

theorem Select.codec_exact : (Codec.named Select).Exact fun _ => True := .named fun x => by cases x <;> rfl

structure ConsumedCapacity.WellFormed (x : ConsumedCapacity) : Prop where
  units : ∀ u ∈ x.units, u.isFinite = true
  readUnits : ∀ u ∈ x.readUnits, u.isFinite = true
  writeUnits : ∀ u ∈ x.writeUnits, u.isFinite = true

theorem ConsumedCapacity.codec_exact : codec.Exact WellFormed := .record rfl (by decide) fun _ hx => ⟨_, rfl,
  reads_make |>.and (.unbound .text) trivial |>.and (.optional .float) hx.units |>.and (.optional .float) hx.readUnits
    |>.and (.optional .float) hx.writeUnits⟩

structure ItemCollectionMetrics.WellFormed (x : ItemCollectionMetrics) : Prop where
  collectionKey : x.collectionKey.WellKeyed
  sizeRange : ∀ size ∈ x.sizeRange, size.isFinite = true

theorem ItemCollectionMetrics.codec_exact : codec.Exact WellFormed := .record rfl (by decide) fun _ hx => ⟨_, rfl,
  reads_make |>.and (.sequence .item) hx.collectionKey |>.and (.sequence (.list .float)) hx.sizeRange⟩

def CancellationReason.WellFormed (x : CancellationReason) : Prop := x.item.WellKeyed

theorem CancellationReason.codec_exact : codec.Exact WellFormed := .record rfl (by decide) fun _ hx => ⟨_, rfl,
  reads_make |>.and (.unbound .text) trivial |>.and (.unbound .text) trivial |>.and (.sequence .item) hx⟩

namespace Request

structure PutItem.WellFormed (x : PutItem) : Prop where
  item : x.item.WellKeyed
  names : (Entries.keys x.names).Nodup
  values : Item.WellKeyed x.values

theorem PutItem.codec_exact : codec.Exact WellFormed := .record rfl (by decide) fun _ hx => ⟨_, rfl,
  reads_make |>.and (.required .text) trivial |>.and (.required .item) hx.item |>.and (.unbound .text) trivial
    |>.and (.sequence .names) hx.names |>.and (.sequence .values) hx.values
    |>.and (.unbound ReturnValue.codec_exact) trivial |>.and (.unbound CapacityReport.codec_exact) trivial
    |>.and (.unbound MetricsReport.codec_exact) trivial |>.and (.unbound OnCheckFailure.codec_exact) trivial⟩

structure GetItem.WellFormed (x : GetItem) : Prop where
  key : x.key.WellKeyed
  names : (Entries.keys x.names).Nodup

theorem GetItem.codec_exact : codec.Exact WellFormed := .record rfl (by decide) fun _ hx => ⟨_, rfl,
  reads_make |>.and (.required .text) trivial |>.and (.required .item) hx.key |>.and (.unbound .text) trivial
    |>.and (.sequence .names) hx.names |>.and (.unbound .bool) trivial
    |>.and (.unbound CapacityReport.codec_exact) trivial⟩

structure UpdateItem.WellFormed (x : UpdateItem) : Prop where
  key : x.key.WellKeyed
  names : (Entries.keys x.names).Nodup
  values : Item.WellKeyed x.values

theorem UpdateItem.codec_exact : codec.Exact WellFormed := .record rfl (by decide) fun _ hx => ⟨_, rfl,
  reads_make |>.and (.required .text) trivial |>.and (.required .item) hx.key |>.and (.unbound .text) trivial
    |>.and (.unbound .text) trivial |>.and (.sequence .names) hx.names |>.and (.sequence .values) hx.values
    |>.and (.unbound ReturnValue.codec_exact) trivial |>.and (.unbound CapacityReport.codec_exact) trivial
    |>.and (.unbound MetricsReport.codec_exact) trivial |>.and (.unbound OnCheckFailure.codec_exact) trivial⟩

structure DeleteItem.WellFormed (x : DeleteItem) : Prop where
  key : x.key.WellKeyed
  names : (Entries.keys x.names).Nodup
  values : Item.WellKeyed x.values

theorem DeleteItem.codec_exact : codec.Exact WellFormed := .record rfl (by decide) fun _ hx => ⟨_, rfl,
  reads_make |>.and (.required .text) trivial |>.and (.required .item) hx.key |>.and (.unbound .text) trivial
    |>.and (.sequence .names) hx.names |>.and (.sequence .values) hx.values
    |>.and (.unbound ReturnValue.codec_exact) trivial |>.and (.unbound CapacityReport.codec_exact) trivial
    |>.and (.unbound MetricsReport.codec_exact) trivial |>.and (.unbound OnCheckFailure.codec_exact) trivial⟩

structure Query.WellFormed (x : Query) : Prop where
  names : (Entries.keys x.names).Nodup
  values : Item.WellKeyed x.values
  limit : ∀ n ∈ x.limit, IsInt32 n
  startKey : x.startKey.WellKeyed

theorem Query.codec_exact : codec.Exact WellFormed := .record rfl (by decide) fun _ hx => ⟨_, rfl,
  reads_make |>.and (.required .text) trivial |>.and (.unbound .text) trivial |>.and (.unbound .text) trivial
    |>.and (.unbound .text) trivial |>.and (.unbound .text) trivial |>.and (.sequence .names) hx.names
    |>.and (.sequence .values) hx.values |>.and (.unbound Select.codec_exact) trivial
    |>.and (.optional .int32) hx.limit |>.and (.unbound .bool) trivial |>.and (.unbound .bool) trivial
    |>.and (.sequence .item) hx.startKey |>.and (.unbound CapacityReport.codec_exact) trivial⟩

structure Scan.WellFormed (x : Scan) : Prop where
  names : (Entries.keys x.names).Nodup
  values : Item.WellKeyed x.values
  limit : ∀ n ∈ x.limit, IsInt32 n
  startKey : x.startKey.WellKeyed
  segment : ∀ n ∈ x.segment, IsInt32 n
  totalSegments : ∀ n ∈ x.totalSegments, IsInt32 n

theorem Scan.codec_exact : codec.Exact WellFormed := .record rfl (by decide) fun _ hx => ⟨_, rfl,
  reads_make |>.and (.required .text) trivial |>.and (.unbound .text) trivial |>.and (.unbound .text) trivial
    |>.and (.unbound .text) trivial |>.and (.sequence .names) hx.names |>.and (.sequence .values) hx.values
    |>.and (.unbound Select.codec_exact) trivial |>.and (.optional .int32) hx.limit |>.and (.unbound .bool) trivial
    |>.and (.sequence .item) hx.startKey |>.and (.optional .int32) hx.segment
    |>.and (.optional .int32) hx.totalSegments |>.and (.unbound CapacityReport.codec_exact) trivial⟩

structure KeysAndAttributes.WellFormed (x : KeysAndAttributes) : Prop where
  keys : ∀ key ∈ x.keys, key.WellKeyed
  names : (Entries.keys x.names).Nodup

theorem KeysAndAttributes.codec_exact : codec.Exact WellFormed := .record rfl (by decide) fun _ hx => ⟨_, rfl,
  reads_make |>.and (.required (.list .item)) hx.keys |>.and (.unbound .text) trivial
    |>.and (.sequence .names) hx.names |>.and (.unbound .bool) trivial⟩

def BatchGetItem.WellFormed (x : BatchGetItem) : Prop := Entries.Distinct KeysAndAttributes.WellFormed x.requestItems

theorem BatchGetItem.codec_exact : codec.Exact WellFormed := .record rfl (by decide) fun _ hx => ⟨_, rfl,
  reads_make |>.and (.required (.map KeysAndAttributes.codec_exact)) hx
    |>.and (.unbound CapacityReport.codec_exact) trivial⟩

def PutEntry.WellFormed (x : PutEntry) : Prop := x.item.WellKeyed

theorem PutEntry.codec_exact : codec.Exact WellFormed := .record rfl (by decide) fun _ hx => ⟨_, rfl,
  reads_make |>.and (.required .item) hx⟩

def DeleteEntry.WellFormed (x : DeleteEntry) : Prop := x.key.WellKeyed

theorem DeleteEntry.codec_exact : codec.Exact WellFormed := .record rfl (by decide) fun _ hx => ⟨_, rfl,
  reads_make |>.and (.required .item) hx⟩

structure BatchEntry.WellFormed (x : BatchEntry) : Prop where
  put : ∀ entry ∈ x.put, entry.WellFormed
  delete : ∀ entry ∈ x.delete, entry.WellFormed

theorem BatchEntry.codec_exact : codec.Exact WellFormed := .record rfl (by decide) fun _ hx => ⟨_, rfl,
  reads_make |>.and (.optional PutEntry.codec_exact) hx.put |>.and (.optional DeleteEntry.codec_exact) hx.delete⟩

def BatchWriteItem.WellFormed (x : BatchWriteItem) : Prop :=
  Entries.Distinct (fun entries => ∀ e ∈ entries, BatchEntry.WellFormed e) x.requestItems

theorem BatchWriteItem.codec_exact : codec.Exact WellFormed := .record rfl (by decide) fun _ hx => ⟨_, rfl,
  reads_make |>.and (.required (.map (.list BatchEntry.codec_exact))) hx
    |>.and (.unbound CapacityReport.codec_exact) trivial |>.and (.unbound MetricsReport.codec_exact) trivial⟩

structure Get.WellFormed (x : Get) : Prop where
  key : x.key.WellKeyed
  names : (Entries.keys x.names).Nodup

theorem Get.codec_exact : codec.Exact WellFormed := .record rfl (by decide) fun _ hx => ⟨_, rfl,
  reads_make |>.and (.required .text) trivial |>.and (.required .item) hx.key |>.and (.unbound .text) trivial
    |>.and (.sequence .names) hx.names⟩

def TransactGetEntry.WellFormed (x : TransactGetEntry) : Prop := x.get.WellFormed

theorem TransactGetEntry.codec_exact : codec.Exact WellFormed := .record rfl (by decide) fun _ hx => ⟨_, rfl,
  reads_make |>.and (.required Get.codec_exact) hx⟩

def TransactGetItems.WellFormed (x : TransactGetItems) : Prop := ∀ entry ∈ x.entries, entry.WellFormed

theorem TransactGetItems.codec_exact : codec.Exact WellFormed := .record rfl (by decide) fun _ hx => ⟨_, rfl,
  reads_make |>.and (.required (.list TransactGetEntry.codec_exact)) hx
    |>.and (.unbound CapacityReport.codec_exact) trivial⟩

structure ConditionCheck.WellFormed (x : ConditionCheck) : Prop where
  key : x.key.WellKeyed
  names : (Entries.keys x.names).Nodup
  values : Item.WellKeyed x.values

theorem ConditionCheck.codec_exact : codec.Exact WellFormed := .record rfl (by decide) fun _ hx => ⟨_, rfl,
  reads_make |>.and (.required .text) trivial |>.and (.required .item) hx.key |>.and (.unbound .text) trivial
    |>.and (.sequence .names) hx.names |>.and (.sequence .values) hx.values
    |>.and (.unbound OnCheckFailure.codec_exact) trivial⟩

structure TransactWriteEntry.WellFormed (x : TransactWriteEntry) : Prop where
  check : ∀ r ∈ x.check, r.WellFormed
  put : ∀ r ∈ x.put, r.WellFormed
  delete : ∀ r ∈ x.delete, r.WellFormed
  update : ∀ r ∈ x.update, r.WellFormed

theorem TransactWriteEntry.codec_exact : codec.Exact WellFormed := .record rfl (by decide) fun _ hx => ⟨_, rfl,
  reads_make |>.and (.optional ConditionCheck.codec_exact) hx.check |>.and (.optional PutItem.codec_exact) hx.put
    |>.and (.optional DeleteItem.codec_exact) hx.delete |>.and (.optional UpdateItem.codec_exact) hx.update⟩

def TransactWriteItems.WellFormed (x : TransactWriteItems) : Prop := ∀ entry ∈ x.entries, entry.WellFormed

theorem TransactWriteItems.codec_exact : codec.Exact WellFormed := .record rfl (by decide) fun _ hx => ⟨_, rfl,
  reads_make |>.and (.required (.list TransactWriteEntry.codec_exact)) hx |>.and (.unbound .text) trivial
    |>.and (.unbound CapacityReport.codec_exact) trivial |>.and (.unbound MetricsReport.codec_exact) trivial⟩

end Request

namespace Response

open Request (BatchEntry KeysAndAttributes)

structure PutItem.WellFormed (x : PutItem) : Prop where
  attributes : x.attributes.WellKeyed
  capacity : ∀ c ∈ x.capacity, c.WellFormed
  metrics : ∀ m ∈ x.metrics, m.WellFormed

theorem PutItem.codec_exact : codec.Exact WellFormed := .record rfl (by decide) fun _ hx => ⟨_, rfl,
  reads_make |>.and (.sequence .item) hx.attributes |>.and (.optional ConsumedCapacity.codec_exact) hx.capacity
    |>.and (.optional ItemCollectionMetrics.codec_exact) hx.metrics⟩

structure GetItem.WellFormed (x : GetItem) : Prop where
  item : ∀ item ∈ x.item, item.WellKeyed
  capacity : ∀ c ∈ x.capacity, c.WellFormed

theorem GetItem.codec_exact : codec.Exact WellFormed := .record rfl (by decide) fun _ hx => ⟨_, rfl,
  reads_make |>.and (.optional .item) hx.item |>.and (.optional ConsumedCapacity.codec_exact) hx.capacity⟩

structure UpdateItem.WellFormed (x : UpdateItem) : Prop where
  attributes : x.attributes.WellKeyed
  capacity : ∀ c ∈ x.capacity, c.WellFormed
  metrics : ∀ m ∈ x.metrics, m.WellFormed

theorem UpdateItem.codec_exact : codec.Exact WellFormed := .record rfl (by decide) fun _ hx => ⟨_, rfl,
  reads_make |>.and (.sequence .item) hx.attributes |>.and (.optional ConsumedCapacity.codec_exact) hx.capacity
    |>.and (.optional ItemCollectionMetrics.codec_exact) hx.metrics⟩

structure DeleteItem.WellFormed (x : DeleteItem) : Prop where
  attributes : x.attributes.WellKeyed
  capacity : ∀ c ∈ x.capacity, c.WellFormed
  metrics : ∀ m ∈ x.metrics, m.WellFormed

theorem DeleteItem.codec_exact : codec.Exact WellFormed := .record rfl (by decide) fun _ hx => ⟨_, rfl,
  reads_make |>.and (.sequence .item) hx.attributes |>.and (.optional ConsumedCapacity.codec_exact) hx.capacity
    |>.and (.optional ItemCollectionMetrics.codec_exact) hx.metrics⟩

structure Query.WellFormed (x : Query) : Prop where
  items : ∀ item ∈ x.items, item.WellKeyed
  count : IsInt32 x.count
  scannedCount : IsInt32 x.scannedCount
  lastKey : x.lastKey.WellKeyed
  capacity : ∀ c ∈ x.capacity, c.WellFormed

theorem Query.codec_exact : codec.Exact WellFormed := .record rfl (by decide) fun _ hx => ⟨_, rfl,
  reads_make |>.and (.sequence (.list .item)) hx.items |>.and (.defaulted .int32) hx.count
    |>.and (.defaulted .int32) hx.scannedCount |>.and (.sequence .item) hx.lastKey
    |>.and (.optional ConsumedCapacity.codec_exact) hx.capacity⟩

structure Scan.WellFormed (x : Scan) : Prop where
  items : ∀ item ∈ x.items, item.WellKeyed
  count : IsInt32 x.count
  scannedCount : IsInt32 x.scannedCount
  lastKey : x.lastKey.WellKeyed
  capacity : ∀ c ∈ x.capacity, c.WellFormed

theorem Scan.codec_exact : codec.Exact WellFormed := .record rfl (by decide) fun _ hx => ⟨_, rfl,
  reads_make |>.and (.sequence (.list .item)) hx.items |>.and (.defaulted .int32) hx.count
    |>.and (.defaulted .int32) hx.scannedCount |>.and (.sequence .item) hx.lastKey
    |>.and (.optional ConsumedCapacity.codec_exact) hx.capacity⟩

structure BatchGetItem.WellFormed (x : BatchGetItem) : Prop where
  responses : Entries.Distinct (fun items => ∀ item ∈ items, Item.WellKeyed item) x.responses
  unprocessedKeys : Entries.Distinct KeysAndAttributes.WellFormed x.unprocessedKeys
  capacity : ∀ c ∈ x.capacity, c.WellFormed

theorem BatchGetItem.codec_exact : codec.Exact WellFormed := .record rfl (by decide) fun _ hx => ⟨_, rfl,
  reads_make |>.and (.sequence (.map (.list .item))) hx.responses
    |>.and (.sequence (.map KeysAndAttributes.codec_exact)) hx.unprocessedKeys
    |>.and (.sequence (.list ConsumedCapacity.codec_exact)) hx.capacity⟩

structure BatchWriteItem.WellFormed (x : BatchWriteItem) : Prop where
  unprocessedItems : Entries.Distinct (fun entries => ∀ e ∈ entries, BatchEntry.WellFormed e) x.unprocessedItems
  metrics : Entries.Distinct (fun tables => ∀ m ∈ tables, ItemCollectionMetrics.WellFormed m) x.metrics
  capacity : ∀ c ∈ x.capacity, c.WellFormed

theorem BatchWriteItem.codec_exact : codec.Exact WellFormed := .record rfl (by decide) fun _ hx => ⟨_, rfl,
  reads_make |>.and (.sequence (.map (.list BatchEntry.codec_exact))) hx.unprocessedItems
    |>.and (.sequence (.map (.list ItemCollectionMetrics.codec_exact))) hx.metrics
    |>.and (.sequence (.list ConsumedCapacity.codec_exact)) hx.capacity⟩

def ItemEntry.WellFormed (x : ItemEntry) : Prop := ∀ item ∈ x.item, item.WellKeyed

theorem ItemEntry.codec_exact : codec.Exact WellFormed := .record rfl (by decide) fun _ hx => ⟨_, rfl,
  reads_make |>.and (.optional .item) hx⟩

structure TransactGetItems.WellFormed (x : TransactGetItems) : Prop where
  responses : ∀ entry ∈ x.responses, entry.WellFormed
  capacity : ∀ c ∈ x.capacity, c.WellFormed

theorem TransactGetItems.codec_exact : codec.Exact WellFormed := .record rfl (by decide) fun _ hx => ⟨_, rfl,
  reads_make |>.and (.sequence (.list ItemEntry.codec_exact)) hx.responses
    |>.and (.sequence (.list ConsumedCapacity.codec_exact)) hx.capacity⟩

structure TransactWriteItems.WellFormed (x : TransactWriteItems) : Prop where
  capacity : ∀ c ∈ x.capacity, c.WellFormed
  metrics : Entries.Distinct (fun tables => ∀ m ∈ tables, ItemCollectionMetrics.WellFormed m) x.metrics

theorem TransactWriteItems.codec_exact : codec.Exact WellFormed := .record rfl (by decide) fun _ hx => ⟨_, rfl,
  reads_make |>.and (.sequence (.list ConsumedCapacity.codec_exact)) hx.capacity
    |>.and (.sequence (.map (.list ItemCollectionMetrics.codec_exact))) hx.metrics⟩

end Response

structure PayloadForm where
  Carrier : Type
  codec : Codec Carrier
  WellFormed : Carrier → Prop

namespace PayloadForm

def requests : List PayloadForm :=
  open Request in
  [⟨_, PutItem.codec, PutItem.WellFormed⟩, ⟨_, GetItem.codec, GetItem.WellFormed⟩,
    ⟨_, UpdateItem.codec, UpdateItem.WellFormed⟩, ⟨_, DeleteItem.codec, DeleteItem.WellFormed⟩,
    ⟨_, Query.codec, Query.WellFormed⟩, ⟨_, Scan.codec, Scan.WellFormed⟩,
    ⟨_, BatchGetItem.codec, BatchGetItem.WellFormed⟩, ⟨_, BatchWriteItem.codec, BatchWriteItem.WellFormed⟩,
    ⟨_, TransactGetItems.codec, TransactGetItems.WellFormed⟩,
    ⟨_, TransactWriteItems.codec, TransactWriteItems.WellFormed⟩]

def responses : List PayloadForm :=
  open Response in
  [⟨_, PutItem.codec, PutItem.WellFormed⟩, ⟨_, GetItem.codec, GetItem.WellFormed⟩,
    ⟨_, UpdateItem.codec, UpdateItem.WellFormed⟩, ⟨_, DeleteItem.codec, DeleteItem.WellFormed⟩,
    ⟨_, Query.codec, Query.WellFormed⟩, ⟨_, Scan.codec, Scan.WellFormed⟩,
    ⟨_, BatchGetItem.codec, BatchGetItem.WellFormed⟩, ⟨_, BatchWriteItem.codec, BatchWriteItem.WellFormed⟩,
    ⟨_, TransactGetItems.codec, TransactGetItems.WellFormed⟩,
    ⟨_, TransactWriteItems.codec, TransactWriteItems.WellFormed⟩]

def parts : List PayloadForm :=
  open Request Response in
  [⟨_, KeysAndAttributes.codec, KeysAndAttributes.WellFormed⟩, ⟨_, PutEntry.codec, PutEntry.WellFormed⟩,
    ⟨_, DeleteEntry.codec, DeleteEntry.WellFormed⟩, ⟨_, BatchEntry.codec, BatchEntry.WellFormed⟩,
    ⟨_, Get.codec, Get.WellFormed⟩, ⟨_, TransactGetEntry.codec, TransactGetEntry.WellFormed⟩,
    ⟨_, ConditionCheck.codec, ConditionCheck.WellFormed⟩,
    ⟨_, TransactWriteEntry.codec, TransactWriteEntry.WellFormed⟩, ⟨_, ItemEntry.codec, ItemEntry.WellFormed⟩,
    ⟨_, ConsumedCapacity.codec, ConsumedCapacity.WellFormed⟩,
    ⟨_, ItemCollectionMetrics.codec, ItemCollectionMetrics.WellFormed⟩,
    ⟨_, CancellationReason.codec, CancellationReason.WellFormed⟩, ⟨_, .named ReturnValue, fun _ => True⟩,
    ⟨_, .named CapacityReport, fun _ => True⟩, ⟨_, .named MetricsReport, fun _ => True⟩,
    ⟨_, .named OnCheckFailure, fun _ => True⟩, ⟨_, .named Select, fun _ => True⟩,
    ⟨_, .item, Item.WellKeyed⟩, ⟨_, .wire, fun w => w.wellKeyed = true⟩]

def all : List PayloadForm := requests ++ responses ++ parts

variable {f : PayloadForm}

theorem exact_of_request (h : f ∈ requests) : f.codec.Exact f.WellFormed := by
  revert f
  simp only [requests, List.forall_mem_cons]
  exact ⟨Request.PutItem.codec_exact, Request.GetItem.codec_exact, Request.UpdateItem.codec_exact,
    Request.DeleteItem.codec_exact, Request.Query.codec_exact, Request.Scan.codec_exact,
    Request.BatchGetItem.codec_exact, Request.BatchWriteItem.codec_exact, Request.TransactGetItems.codec_exact,
    Request.TransactWriteItems.codec_exact, nofun⟩

theorem exact_of_response (h : f ∈ responses) : f.codec.Exact f.WellFormed := by
  revert f
  simp only [responses, List.forall_mem_cons]
  exact ⟨Response.PutItem.codec_exact, Response.GetItem.codec_exact, Response.UpdateItem.codec_exact,
    Response.DeleteItem.codec_exact, Response.Query.codec_exact, Response.Scan.codec_exact,
    Response.BatchGetItem.codec_exact, Response.BatchWriteItem.codec_exact, Response.TransactGetItems.codec_exact,
    Response.TransactWriteItems.codec_exact, nofun⟩

theorem exact_of_part (h : f ∈ parts) : f.codec.Exact f.WellFormed := by
  revert f
  simp only [parts, List.forall_mem_cons]
  exact ⟨Request.KeysAndAttributes.codec_exact, Request.PutEntry.codec_exact, Request.DeleteEntry.codec_exact,
    Request.BatchEntry.codec_exact, Request.Get.codec_exact, Request.TransactGetEntry.codec_exact,
    Request.ConditionCheck.codec_exact, Request.TransactWriteEntry.codec_exact, Response.ItemEntry.codec_exact,
    ConsumedCapacity.codec_exact, ItemCollectionMetrics.codec_exact, CancellationReason.codec_exact,
    ReturnValue.codec_exact, CapacityReport.codec_exact, MetricsReport.codec_exact, OnCheckFailure.codec_exact,
    Select.codec_exact, .item, .wire, nofun⟩

/-- A payload is read back from its JSON. So it is from a text, where the reader of texts reads its floats exactly and
reaches as deep as its values do. -/
theorem read_encoded (texts : JsonTexts) (hf : f ∈ all) {x : f.Carrier} (hx : f.WellFormed x) :
    f.codec.decode (f.codec.encode x) = .ok x ∧
    ((∀ y ∈ (f.codec.encode x).floats, texts.ReadsExactly y) → (f.codec.encode x).depth ≤ texts.greatestDepth →
      (texts.read (texts.write (f.codec.encode x))).map f.codec.decode = some (.ok x)) := by
  have hexact : f.codec.Exact f.WellFormed := by
    rcases List.mem_append.1 hf with hf | hf
    · exact (List.mem_append.1 hf).elim exact_of_request exact_of_response
    · exact exact_of_part hf
  have hread := hexact.read x hx
  refine ⟨hread, fun hfloats hdepth => ?_⟩
  rw [texts.read_write _ (hexact.printable x hx) hfloats hdepth, Option.map_some, hread]

def twoItems : Response.TransactGetItems where
  responses := [⟨some []⟩, ⟨none⟩]
  capacity := [{ tableName := some "orders", units := some (.ofRatio false 1 2) }]

theorem twoItems_read :
    Response.TransactGetItems.codec.decode (Response.TransactGetItems.codec.encode twoItems) = .ok twoItems ∧
    ((JsonTexts.compact 127).read ((JsonTexts.compact 127).write (Response.TransactGetItems.codec.encode twoItems))).map
      Response.TransactGetItems.codec.decode = some (.ok twoItems) := by
  have hform : (⟨_, Response.TransactGetItems.codec, Response.TransactGetItems.WellFormed⟩ : PayloadForm) ∈ all := by
    simp only [all, responses, List.mem_append, List.mem_cons, true_or, or_true]
  have hempty : Item.WellKeyed [] := rfl
  have hunits : ∀ u ∈ some (Binary64.ofRatio false 1 2), u.isFinite = true := by
    intro u hu
    rw [← Option.mem_some.1 hu]
    decide
  have hnone : ∀ u ∈ (none : Option Binary64), u.isFinite = true := by simp
  have hwell : Response.TransactGetItems.WellFormed twoItems := by
    refine ⟨by simp [twoItems, Response.ItemEntry.WellFormed, hempty], fun c hc => ?_⟩
    obtain rfl := List.mem_singleton.1 hc
    exact ⟨hunits, hnone, hnone⟩
  obtain ⟨hread, htext⟩ := read_encoded (.compact 127) hform hwell
  exact ⟨hread, htext (fun _ _ => trivial) (by decide)⟩

end PayloadForm

end ItemMapper
