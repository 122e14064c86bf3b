import MiniDB.Core.SchemaLanguage
import MiniDB.Core.TableRefinement

/-!
# Orders across two tables

`placeOrder` of `multi_table_consistency_by_hand.cpp`: the stock of an item is decremented, then
the order is recorded; if the second step fails the first one is made up for. To a caller who
looks at the tables between calls that is one transaction on two maps, as long as the items hold
nothing but their stock: both steps write an item anew, so whatever else it held would be lost.
-/

namespace MiniDB.Core.Table

open MiniDB.Common MiniDB.JsonPro Refinement

variable {t : Table}

/-- A consistent table is asked for the entry of its map. -/
theorem Consistent.getRecord_eq (h : t.Consistent) (id : RecordID) (out : Record) :
    t.getRecord id out =
      match t.contents.get? id with
      | some data => (.OK, Record.new id data)
      | none => (.NOT_FOUND, out) := by
  have hanswers := mapAnswers_getRecord h.nodup (h.wired.mapped.getRecord id out)
  unfold MapAnswers RecordMap.answer at hanswers
  dsimp only at hanswers
  cases hdata : t.contents.get? id with
  | none =>
    rw [hdata] at hanswers
    injection (Prod.mk.inj hanswers).1 with hstatus hout
    exact Prod.ext hstatus hout
  | some data =>
    rw [hdata] at hanswers
    injection (Prod.mk.inj hanswers).1 with hstatus hout
    exact Prod.ext hstatus hout

/-- An update of a consistent table replaces the entry of its map. -/
theorem Consistent.updateRecord_ok (h : t.Consistent) {record : Record}
    (hvalid : record.validate t.schema = .OK) (hmem : t.contents.contains record.id = true) :
    ∃ t', t.updateRecord record = (.OK, t') ∧ t'.Consistent ∧ t'.schema = t.schema ∧
      t'.contents = t.contents.put record.id record.data := by
  obtain ⟨t', hupdate, hwired, hpages, hafter⟩ :=
    h.wired.updateRecord hvalid (contains_contents.mp hmem)
  exact ⟨t', hupdate, (h.numbered.keeps hpages).consistent hwired, hpages.schema,
    contents_update (contains_contents.mp hmem) hafter⟩

/-- An insertion of a valid record into a consistent table adds an entry to its map or reports
that there is one. -/
theorem Consistent.insertRecord_cases [InsertPolicy] (h : t.Consistent)
    (hroom : t.pages.length < 2 ^ 32)
    {record : Record} (hvalid : record.validate t.schema = .OK) :
    (t.contents.contains record.id = true ∧ t.insertRecord record = (.DUPLICATE_KEY, t)) ∨
    (t.contents.contains record.id = false ∧ ∃ t', t.insertRecord record = (.OK, t') ∧
      t'.Consistent ∧ t'.schema = t.schema ∧
      t'.contents = t.contents.put record.id record.data ∧
      t'.pages.length ≤ t.pages.length + 1) := by
  cases hcontains : t.contents.contains record.id with
  | true =>
    have hmem := contains_contents.mp hcontains
    exact .inl ⟨rfl, insertRecord_of_contains hvalid (h.wired.mapped.contains_index.mpr hmem)⟩
  | false =>
    have hmem : record.id ∉ t.liveRecords.map Record.id := fun hmem =>
      Bool.false_ne_true (hcontains.symm.trans (contains_contents.mpr hmem))
    obtain ⟨t', left, right, hinsert, hwired, hpages, hbefore, hafter⟩ :=
      h.wired.insertRecord hvalid hmem fun _ => h.numbered.fresh hroom
    have hcontents := contents_insert hbefore hafter hmem
    refine .inr ⟨rfl, t', hinsert, (h.numbered.step hroom hpages).consistent hwired, ?_,
      hcontents, ?_⟩
    · rcases hpages with ⟨_, hkept⟩ | ⟨_, hadded⟩
      · exact hkept.schema
      · exact hadded.schema
    · rcases hpages with ⟨_, hkept⟩ | ⟨_, hadded⟩
      · have hlength := congrArg List.length hkept.pageIds
        rw [List.length_map, List.length_map] at hlength
        omega
      · have hlength := congrArg List.length hadded.pageIds
        rw [List.length_map, List.length_append, List.length_map, List.length_singleton] at hlength
        omega

end MiniDB.Core.Table

namespace MiniDB.Examples

open MiniDB.Common MiniDB.JsonPro MiniDB.Core Memory Refinement

/-- The two tables. -/
structure Shop where
  /-- The stock of every item. -/
  inventory : Table
  /-- The orders. -/
  orders : Table

/-- `inventorySchema`. -/
def inventorySchema : List ColumnDef := [⟨"stock", .INT, false⟩]

/-- `orderSchema`. -/
def orderSchema : List ColumnDef := [⟨"item_id", .INT, false⟩]

section Placing

variable [InsertPolicy]

/-- `placeOrder`. -/
def placeOrder (shop : Shop) (itemId orderId : RecordID) : Except Fault (Status × Shop) :=
  match shop.inventory.getRecord itemId Record.default with
  | (.OK, item) => do
    let stock ← (← (item.getField "stock").asNumber).toInt
    if stock.val ≤ 0 then return (.OUT_OF_MEMORY, shop)
    let (_, decremented) ← (Record.new itemId Json.emptyObject).setField "stock"
      (.ofInt (stock.val - 1))
    match shop.inventory.updateRecord decremented with
    | (.OK, inventory) =>
      let (_, order) ← (Record.new orderId Json.emptyObject).setField "item_id"
        (.ofInt (toInt32 itemId.toNat))
      match shop.orders.insertRecord order with
      | (.OK, orders) => return (.OK, ⟨inventory, orders⟩)
      | (s, orders) =>
        -- the stock is put back
        let (_, restored) ← (Record.new itemId Json.emptyObject).setField "stock"
          (.ofInt stock.val)
        return (s, ⟨(inventory.updateRecord restored).2, orders⟩)
    | (s, inventory) => return (s, ⟨inventory, shop.orders⟩)
  | (s, _) => .ok (s, shop)

/-- An order that is to be placed. -/
structure OrderCall where
  /-- The item. -/
  item : RecordID
  /-- The identifier of the order. -/
  order : RecordID

/-- One call. -/
def placeStep (shop : Shop) (call : OrderCall) : Except Fault (Status × Shop) :=
  placeOrder shop call.item call.order

end Placing

/-- The data of an item with nothing but a stock. -/
def stockData (stock : ℤ) : Json := .object [("stock", .ofInt stock)]

/-- The data of an order. -/
def orderData (item : RecordID) : Json := .object [("item_id", .ofInt (toInt32 item.toNat))]

/-- The stock in the data of an item. -/
def stockIn (data : Json) : Option ℤ :=
  match data.member? "stock" with
  | some (.number (.finite value)) => some value.num
  | _ => none

/-- Items and orders as maps. -/
structure ShopMaps where
  /-- The data of every item. -/
  items : RecordMap
  /-- The data of every order. -/
  placed : RecordMap

/-- The transaction: an order that is new takes one of the stock and is recorded. Any other one is
refused and changes nothing. -/
def ShopMaps.place (m : ShopMaps) (call : OrderCall) : Status × ShopMaps :=
  match (m.items.get? call.item).bind stockIn with
  | none => (.NOT_FOUND, m)
  | some stock =>
    if stock ≤ 0 then (.OUT_OF_MEMORY, m)
    else if m.placed.contains call.order then (.DUPLICATE_KEY, m)
    else (.OK, ⟨m.items.put call.item (stockData (stock - 1)),
      m.placed.put call.order (orderData call.item)⟩)

/-- The maps of a shop. -/
def Shop.maps (shop : Shop) : ShopMaps := ⟨shop.inventory.contents, shop.orders.contents⟩

/-- Every item holds a stock that is an `int` and nothing else. -/
def Stocked (items : RecordMap) : Prop :=
  ∀ id data, items.get? id = some data → ∃ stock : ℤ,
    data = stockData stock ∧ -2 ^ 31 ≤ stock ∧ stock < 2 ^ 31

/-- The tables are those of the example. -/
structure Shop.Sound (shop : Shop) : Prop where
  /-- The inventory is consistent. -/
  inventory : shop.inventory.Consistent
  /-- The inventory has its schema. -/
  inventorySchema : shop.inventory.schema = inventorySchema
  /-- The orders are consistent. -/
  orders : shop.orders.Consistent
  /-- The orders have their schema. -/
  orderSchema : shop.orders.schema = orderSchema
  /-- Every item holds a stock and nothing else. -/
  stocked : Stocked shop.inventory.contents

/-- A stock fits the inventory. -/
theorem validate_stock {id : RecordID} {stock : ℤ} (h : -2 ^ 31 ≤ stock ∧ stock < 2 ^ 31) :
    (Record.new id (stockData stock)).validate inventorySchema = .OK := by
  have htype : typeOK .INT (.ofInt stock) = true := typeOK_whole.mpr (by omega)
  have hmember : (stockData stock).member? "stock" = some (.ofInt stock) := rfl
  unfold inventorySchema Record.validate Record.validate
  unfold Record.new
  dsimp only
  rw [hmember]
  dsimp only
  rw [htype]
  rfl

/-- An order fits the orders. -/
theorem validate_order (id item : RecordID) :
    (Record.new id (orderData item)).validate orderSchema = .OK := by
  have hbounds := toInt32_bounds item.toNat
  have htype : typeOK .INT (.ofInt (toInt32 item.toNat)) = true := typeOK_whole.mpr (by omega)
  have hmember : (orderData item).member? "item_id" = some (.ofInt (toInt32 item.toNat)) := rfl
  unfold orderSchema Record.validate Record.validate
  unfold Record.new
  dsimp only
  rw [hmember]
  dsimp only
  rw [htype]
  rfl

/-- The stock of an item with nothing but a stock. -/
theorem stockIn_stockData (stock : ℤ) : stockIn (stockData stock) = some stock :=
  congrArg some (Rat.num_intCast stock)

/-- A record with nothing but a stock. -/
theorem setField_stock (id : RecordID) (stock : ℤ) :
    (Record.new id Json.emptyObject).setField "stock" (.ofInt stock) =
      .ok (.OK, Record.new id (stockData stock)) := rfl

/-- A record with nothing but an item. -/
theorem setField_item (id item : RecordID) :
    (Record.new id Json.emptyObject).setField "item_id" (.ofInt (toInt32 item.toNat)) =
      .ok (.OK, Record.new id (orderData item)) := rfl

/-- An item whose stock is replaced by an `int` leaves every item with a stock. -/
theorem Stocked.put {items : RecordMap} (h : Stocked items) (id : RecordID) {stock : ℤ}
    (hstock : -2 ^ 31 ≤ stock ∧ stock < 2 ^ 31) : Stocked (items.put id (stockData stock)) := by
  intro other data hdata
  rw [FiniteMap.get?_put] at hdata
  split at hdata
  · cases hdata
    exact ⟨stock, rfl, hstock⟩
  · exact h other data hdata

section Placing

variable [InsertPolicy]

/-- A call on tables like those of the example is the transaction on their maps. -/
theorem Shop.Sound.placeOrder {shop : Shop} (h : shop.Sound)
    (hroom : shop.orders.pages.length < 2 ^ 32) (call : OrderCall) :
    ∃ s shop', placeStep shop call = .ok (s, shop') ∧ shop'.Sound ∧
      (s, shop'.maps) = shop.maps.place call ∧
      shop'.orders.pages.length ≤ shop.orders.pages.length + 1 := by
  unfold placeStep MiniDB.Examples.placeOrder ShopMaps.place Shop.maps
  dsimp only
  rw [h.inventory.getRecord_eq]
  cases hdata : shop.inventory.contents.get? call.item with
  | none => exact ⟨_, shop, rfl, h, rfl, Nat.le_succ _⟩
  | some data =>
    obtain ⟨stock, rfl, hrange⟩ := h.stocked _ _ hdata
    have hfield : (Record.new call.item (stockData stock)).getField "stock" = .ofInt stock := rfl
    have hint : (Double.ofInt stock).toInt = .ok ⟨stock, hrange⟩ := Double.toIntegerIn_ofInt hrange
    have hnumber : (Json.ofInt stock).asNumber = .ok (Double.ofInt stock) := rfl
    dsimp only
    rw [hfield, hnumber, Option.bind_some, stockIn_stockData]
    dsimp only [bind, Except.bind]
    rw [hint]
    dsimp only
    by_cases hout : stock ≤ 0
    · rw [if_pos hout, if_pos hout]
      exact ⟨_, shop, rfl, h, rfl, Nat.le_succ _⟩
    · rw [if_neg hout, if_neg hout, setField_stock]
      dsimp only
      have hcontains : shop.inventory.contents.contains call.item = true := by
        unfold FiniteMap.contains
        rw [hdata]
        rfl
      have hless : -2 ^ 31 ≤ stock - 1 ∧ stock - 1 < 2 ^ 31 := by omega
      have htaken : (Record.new call.item (stockData (stock - 1))).validate
          shop.inventory.schema = .OK := by
        rw [h.inventorySchema]
        exact validate_stock hless
      have hordered : (Record.new call.order (orderData call.item)).validate
          shop.orders.schema = .OK := by
        rw [h.orderSchema]
        exact validate_order _ _
      obtain ⟨inventory, hupdate, hinventory, hschema, hcontents⟩ :=
        h.inventory.updateRecord_ok htaken hcontains
      rw [hupdate]
      dsimp only
      rw [setField_item]
      dsimp only
      rcases h.orders.insertRecord_cases hroom hordered with
        ⟨hduplicate, hinsert⟩ | ⟨hnew, orders, hinsert, horders, horderSchema, hplaced, hpages⟩
      · -- the order is there already, and the stock is put back
        have hcontains' : inventory.contents.contains call.item = true := by
          rw [hcontents]
          unfold FiniteMap.contains
          rw [FiniteMap.get?_put]
          exact congrArg Option.isSome (if_pos rfl)
        have hgiven : (Record.new call.item (stockData stock)).validate inventory.schema =
            .OK := by
          rw [hschema, h.inventorySchema]
          exact validate_stock hrange
        obtain ⟨restored, hrestore, hrestored, hschema', hcontents'⟩ :=
          hinventory.updateRecord_ok hgiven hcontains'
        have hback : restored.contents = shop.inventory.contents := by
          rw [hcontents', hcontents]
          exact (FiniteMap.put_put _ _ _ _).trans (FiniteMap.put_of_get? hdata)
        have hduplicate' : shop.orders.contents.contains call.order = true := hduplicate
        rw [hinsert, if_pos hduplicate']
        dsimp only
        rw [setField_stock]
        dsimp only
        rw [hrestore]
        refine ⟨.DUPLICATE_KEY, ⟨restored, shop.orders⟩, rfl,
          ⟨hrestored, hschema'.trans (hschema.trans h.inventorySchema), h.orders,
            h.orderSchema, hback ▸ h.stocked⟩,
          ?_, Nat.le_succ _⟩
        dsimp only
        rw [hback]
      · have hnot : ¬shop.orders.contents.contains call.order = true := Bool.eq_false_iff.mp hnew
        rw [hinsert, if_neg hnot]
        refine ⟨.OK, ⟨inventory, orders⟩, rfl, ⟨hinventory, hschema.trans h.inventorySchema,
          horders, horderSchema.trans h.orderSchema, ?_⟩, ?_, hpages⟩
        · dsimp only
          rw [hcontents]
          exact h.stocked.put call.item hless
        · dsimp only
          rw [hcontents, hplaced]
          rfl

end Placing

section Conservation

/-- The stock of an item. -/
def ShopMaps.stockOf (m : ShopMaps) (item : RecordID) : Option ℤ := (m.items.get? item).bind stockIn

/-- The calls that were accepted. -/
def accepted (calls : List OrderCall) (statuses : List Status) : List OrderCall :=
  ((calls.zip statuses).filter fun p => p.2 = .OK).map Prod.fst

/-- What accepted calls make of the orders. -/
def ordersAfter (placed : RecordMap) (calls : List OrderCall) : RecordMap :=
  calls.foldl (fun placed call => placed.put call.order (orderData call.item)) placed

/-- The stocks and the orders agree on the calls that were accepted in between. -/
structure Conserved (m m' : ShopMaps) (calls : List OrderCall) : Prop where
  /-- Every accepted order took one of the stock of its item. -/
  stock : ∀ item stock, m.stockOf item = some stock →
    m'.stockOf item = some (stock - (calls.countP fun call => call.item = item : ℕ))
  /-- Only what was in stock was sold. -/
  sold : ∀ item stock, m.stockOf item = some stock →
    ((calls.countP fun call => call.item = item : ℕ) : ℤ) ≤ max stock 0
  /-- No item came or went. -/
  items : ∀ item, m'.stockOf item = none ↔ m.stockOf item = none
  /-- The orders are those there were and the accepted ones. -/
  placed : m'.placed = ordersAfter m.placed calls
  /-- Accepted orders are new. -/
  fresh : ∀ call ∈ calls, m.placed.contains call.order = false
  /-- No order was accepted twice. -/
  nodup : (calls.map OrderCall.order).Nodup

/-- The stock of an item after its data was replaced. -/
theorem stockOf_put (m : ShopMaps) (item : RecordID) (stock : ℤ) (placed : RecordMap)
    (other : RecordID) :
    (ShopMaps.mk (m.items.put item (stockData stock)) placed).stockOf other =
      if other = item then some stock else m.stockOf other := by
  unfold ShopMaps.stockOf
  dsimp only
  rw [FiniteMap.get?_put]
  split
  · exact stockIn_stockData stock
  · rfl

/-- A transaction sells one of a stock under a new order, or leaves stocks and orders alone. -/
theorem place_cases {m m' : ShopMaps} {call : OrderCall} {s : Status}
    (h : (s, m') = m.place call) :
    (s = .OK ∧ ∃ stock, m.stockOf call.item = some stock ∧ 0 < stock ∧
      m.placed.contains call.order = false ∧
      (∀ item, m'.stockOf item = if item = call.item then some (stock - 1) else m.stockOf item) ∧
      m'.placed = m.placed.put call.order (orderData call.item)) ∨
    (s ≠ .OK ∧ (∀ item, m'.stockOf item = m.stockOf item) ∧ m'.placed = m.placed) := by
  unfold ShopMaps.place at h
  split at h
  · cases h
    exact .inr ⟨by decide, fun _ => rfl, rfl⟩
  · rename_i stock hstock
    split at h
    · cases h
      exact .inr ⟨by decide, fun _ => rfl, rfl⟩
    · rename_i hpositive
      split at h
      · cases h
        exact .inr ⟨by decide, fun _ => rfl, rfl⟩
      · rename_i hnew
        cases h
        refine .inl ⟨rfl, stock, hstock, not_le.mp hpositive, Bool.eq_false_iff.mpr hnew,
          fun item => ?_, rfl⟩
        rw [stockOf_put]

/-- A call that was not accepted changes nothing. -/
theorem Conserved.skip {m m' m'' : ShopMaps} {calls : List OrderCall}
    (h : Conserved m' m'' calls) (hstock : ∀ item, m'.stockOf item = m.stockOf item)
    (hplaced : m'.placed = m.placed) : Conserved m m'' calls where
  stock item stock hitem := h.stock item stock ((hstock item).trans hitem)
  sold item stock hitem := h.sold item stock ((hstock item).trans hitem)
  items item := (h.items item).trans (by rw [hstock])
  placed := h.placed.trans (by rw [hplaced])
  fresh call hcall := hplaced ▸ h.fresh call hcall
  nodup := h.nodup

/-- A call that was accepted is one more. -/
theorem Conserved.accept {m m' m'' : ShopMaps} {calls : List OrderCall}
    (h : Conserved m' m'' calls) {call : OrderCall} {stock : ℤ}
    (hitem : m.stockOf call.item = some stock) (hpositive : 0 < stock)
    (hnew : m.placed.contains call.order = false)
    (hstock : ∀ item,
      m'.stockOf item = if item = call.item then some (stock - 1) else m.stockOf item)
    (hplaced : m'.placed = m.placed.put call.order (orderData call.item)) :
    Conserved m m'' (call :: calls) := by
  have hself : m'.stockOf call.item = some (stock - 1) := by rw [hstock, if_pos rfl]
  have hcount : ∀ item, item ≠ call.item →
      (call :: calls).countP (fun call => call.item = item) =
        calls.countP fun call => call.item = item :=
    fun item hne => List.countP_cons_of_neg (by simpa using Ne.symm hne)
  have hone : (call :: calls).countP (fun other => other.item = call.item) =
      calls.countP (fun other => other.item = call.item) + 1 := List.countP_cons_of_pos (by simp)
  constructor
  · intro item stock' hstock'
    by_cases hsame : item = call.item
    · subst hsame
      obtain rfl : stock = stock' := Option.some.inj (hitem.symm.trans hstock')
      rw [h.stock _ _ hself, hone]
      push_cast
      exact congrArg some (by omega)
    · rw [hcount item hsame]
      exact h.stock item stock' (by rw [hstock, if_neg hsame]; exact hstock')
  · intro item stock' hstock'
    by_cases hsame : item = call.item
    · subst hsame
      obtain rfl : stock = stock' := Option.some.inj (hitem.symm.trans hstock')
      have hsold := h.sold _ _ hself
      rw [hone]
      push_cast
      omega
    · rw [hcount item hsame]
      exact h.sold item stock' (by rw [hstock, if_neg hsame]; exact hstock')
  · intro item
    rw [h.items item, hstock]
    split
    · rename_i hsame
      rw [hsame, hitem]
      simp
    · rfl
  · rw [h.placed, hplaced]
    rfl
  · intro other hother
    rcases List.mem_cons.mp hother with rfl | hlater
    · exact hnew
    · have hfresh := h.fresh other hlater
      rw [hplaced, FiniteMap.contains_eq_false, FiniteMap.get?_put] at hfresh
      rw [FiniteMap.contains_eq_false]
      split at hfresh
      · cases hfresh
      · exact hfresh
  · rw [List.map_cons, List.nodup_cons]
    refine ⟨fun hmem => ?_, h.nodup⟩
    obtain ⟨other, hother, horder⟩ := List.mem_map.mp hmem
    have hfresh := h.fresh other hother
    rw [hplaced, FiniteMap.contains_eq_false, FiniteMap.get?_put, if_pos horder] at hfresh
    cases hfresh

/-- Runs of the transaction conserve stocks and orders. -/
theorem conserved_of_follows {m m' : ShopMaps} {calls : List OrderCall} {statuses : List Status}
    (h : Follows (fun m call s m' => (s, m') = ShopMaps.place m call) m calls statuses m') :
    Conserved m m' (accepted calls statuses) := by
  induction h with
  | nil m =>
    refine ⟨fun item stock h => ?_, fun item stock _ => ?_, fun _ => Iff.rfl, rfl,
      fun _ h => absurd h List.not_mem_nil, List.nodup_nil⟩
    · rw [h]
      exact congrArg some (sub_zero stock).symm
    · exact le_max_right _ _
  | @cons m m' m'' call s calls statuses hplace _ ih =>
    rcases place_cases hplace with
      ⟨rfl, stock, hitem, hpositive, hnew, hstock, hplaced⟩ | ⟨hs, hstock, hplaced⟩
    · have haccepted : accepted (call :: calls) (.OK :: statuses) =
          call :: accepted calls statuses := rfl
      rw [haccepted]
      exact ih.accept hitem hpositive hnew hstock hplaced
    · have haccepted : accepted (call :: calls) (s :: statuses) = accepted calls statuses := by
        unfold accepted
        rw [List.zip_cons_cons, List.filter_cons_of_neg (by simpa using hs)]
      rw [haccepted]
      exact ih.skip hstock hplaced

variable [InsertPolicy]

/-- The two tables and their maps agree. Every call keeps the agreement as long as page identifiers
are left. -/
def orderSimulation : Simulation placeStep (fun m call s m' => (s, m') = ShopMaps.place m call)
    (fun shop _ => shop.orders.pages.length < 2 ^ 32) where
  Related shop m := shop.Sound ∧ m = shop.maps
  step_follows := by
    rintro shop m call ⟨h, rfl⟩ hroom
    obtain ⟨s, shop', hplace, h', hmaps, _⟩ := h.placeOrder hroom call
    exact ⟨s, shop', shop'.maps, hplace, hmaps, h', rfl⟩

/-- Runs of `placeOrder` never fault. They answer as runs of one transaction on two maps do, so
stocks and orders agree on the calls that were accepted: every one of them took one of the stock
of its item, no stock is oversold, and no order is recorded twice or for a call that failed. -/
theorem orders_by_compensation {shop : Shop} (h : shop.Sound) {calls : List OrderCall}
    (hroom : shop.orders.pages.length + calls.length < 2 ^ 32) :
    ∃ statuses shop', run placeStep shop calls = .ok (statuses, shop') ∧ shop'.Sound ∧
      Follows (fun m call s m' => (s, m') = ShopMaps.place m call) shop.maps calls statuses
        shop'.maps ∧
      Conserved shop.maps shop'.maps (accepted calls statuses) := by
  have halong : Along placeStep (fun shop _ => shop.orders.pages.length < 2 ^ 32) shop calls := by
    have hgrows : ∀ {shop : Shop} {call s shop'}, shop.Sound →
        shop.orders.pages.length < 2 ^ 32 → placeStep shop call = .ok (s, shop') →
        shop'.Sound ∧ shop'.orders.pages.length ≤ shop.orders.pages.length + 1 := by
      intro shop call s shop' h hroom hplace
      obtain ⟨_, _, hplace', h', _, hpages⟩ := h.placeOrder hroom call
      rw [hplace] at hplace'
      cases hplace'
      exact ⟨h', hpages⟩
    exact along_of_growth hgrows h hroom
  obtain ⟨statuses, shop', _, hrun, hfollows, h', rfl⟩ :=
    orderSimulation.run_follows ⟨h, rfl⟩ halong
  exact ⟨statuses, shop', hrun, h', hfollows, conserved_of_follows hfollows⟩

end Conservation

/-- A shop with one widget left. -/
def oneWidget [InsertPolicy] : Shop where
  inventory := ((Table.new "inventory" 0 inventorySchema).insertRecord
    (.new 100 (.object [("stock", .ofInt 1)]))).2
  orders := Table.new "orders" 1 orderSchema

/-- The shop of the example. -/
theorem sound_oneWidget [InsertPolicy] : oneWidget.Sound := by
  have hnew := Table.Consistent.new "inventory" 0 inventorySchema
  have hvalid : (Record.new 100 (.object [("stock", .ofInt 1)])).validate inventorySchema = .OK :=
    validate_stock (by decide)
  rcases hnew.insertRecord_cases (by decide) hvalid with
    ⟨hcontains, _⟩ | ⟨_, t, hinsert, h, hschema, hcontents, _⟩
  · cases hcontains
  · have htable : oneWidget.inventory = t := congrArg Prod.snd hinsert
    refine ⟨htable ▸ h, htable ▸ hschema, Table.Consistent.new _ _ _, rfl, ?_⟩
    rw [htable, hcontents]
    have hnone : Stocked (Table.new "inventory" 0 inventorySchema).contents := by
      intro id data hdata
      cases hdata
    exact hnone.put 100 (by decide)

/-- The widget is sold once: the second order with the same identifier and the third one, for which
nothing is left, are refused. -/
theorem orders_by_compensation_widget :
    letI : InsertPolicy := ⟨true⟩
    ∃ shop', run placeStep oneWidget [⟨100, 1⟩, ⟨100, 1⟩, ⟨100, 2⟩] =
        .ok ([.OK, .OUT_OF_MEMORY, .OUT_OF_MEMORY], shop') ∧
      Conserved oneWidget.maps shop'.maps [⟨100, 1⟩] ∧
      shop'.maps.stockOf 100 = some 0 := by
  let _ : InsertPolicy := ⟨true⟩
  obtain ⟨statuses, shop', hrun, _, _, hconserved⟩ :=
    @orders_by_compensation _ _ sound_oneWidget [⟨100, 1⟩, ⟨100, 1⟩, ⟨100, 2⟩] (by decide)
  have hstatuses : [.OK, .OUT_OF_MEMORY, .OUT_OF_MEMORY] = statuses :=
    congrArg Prod.fst (Except.ok.inj hrun)
  subst hstatuses
  exact ⟨shop', hrun, hconserved, hconserved.stock 100 1 rfl⟩

end MiniDB.Examples
