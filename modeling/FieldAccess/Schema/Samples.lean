import FieldAccess.Schema.Basic

namespace FieldAccess.Schema

def enumField (name typeName : String) (labels : List String) (multi : Bool) : Field where
  name := name
  type := if multi then "[]int" else "int"
  enumeration := some ⟨typeName, labels, none⟩

-- A shop: orders of one customer and many items. Orders have a field of every kind. The `status` of
-- a customer has nothing to do with the enumeration of that name.
def shop : Schema where
  entities :=
    [{ name := "Order"
       collection := some "orders"
       fields :=
         [{ name := "Id", type := "string" },
          { name := "total", type := "float64" },
          { name := "count", type := "int" },
          { name := "paid", type := "bool" },
          { name := "note", backingKey := some "comment", type := "string" },
          enumField "status" "Status" ["new", "paid", "shipped"] false,
          enumField "flags" "Flag" ["rush", "gift"] true,
          { name := "customer", type := "*Customer" },
          { name := "items", type := "[]*Item" },
          { name := "created", type := "types.DateTime", excluded := true }] },
     { name := "Customer"
       collection := some "customers"
       fields := [{ name := "name", type := "string" }, { name := "status", type := "string" }] },
     { name := "Item"
       collection := some "items"
       fields := [{ name := "price", type := "float64" }, { name := "quantity", type := "int" }] }]

def counter : Schema where
  entities :=
    [{ name := "Counter"
       collection := some "counters"
       fields := [{ name := "value", type := "int" }, { name := "label", type := "string" }] }]

def dangling : Schema where
  entities :=
    [{ name := "Order"
       fields :=
         [{ name := "total", type := "float64" }, { name := "owner", type := "*Account" }] }]

def linked : Schema where
  entities :=
    [{ name := "Node"
       collection := some "nodes"
       fields := [{ name := "val", type := "int" }, { name := "next", type := "*Node" }] }]

end FieldAccess.Schema
