import TypedWasm.Code.Allocation
import TypedWasm.Layout.Block

/-!
# Bodies of the runtime helpers

The instruction templates of the helpers. They are fixed but for the slack a new list reserves.
-/

namespace TypedWasm

open Block

namespace HelperBody

/-- Sets `result` to `base + offset + index * scale`. -/
def addressOf (base : String) (offset : UInt32) (index : String) (scale : UInt32)
    (result : String) : Code :=
  [.localGet base, .constU offset, .add, .localGet index, .constU scale, .mul, .add,
   .localSet result]

def wordAt (base index : String) : Code :=
  [.localGet base, .localGet index, .constU wordSize, .mul, .add]

def increment (name : String) : Code := [.localGet name, .const 1, .add, .localSet name]

/-- Leaves the loop around it, and the block around that, once `index` reaches `count`. -/
def leaveAt (index count : String) : Code :=
  [.localGet index, .localGet count, .numeric .geS, .brIf 1]

/-- Copies the word at `i`, and goes on to the next one. -/
def copyRound (source target count i : String) : Code :=
  leaveAt i count ++ wordAt target i ++ wordAt source i ++ [.load 0, .store 0] ++ increment i ++
    [.br 0]

/-- Copies `count` words from the address in `source` to the address in `target`, counting in `i`.
-/
def copyWords (source target count i : String) : Code :=
  [.const 0, .localSet i, .block [.loop (copyRound source target count i)]]

/-- Writes the header of the list whose address is in `list`. -/
def listHeader (list size bound : String) : Code :=
  [.localGet list, .const listTag, .store tagOffset,
   .localGet list, .localGet size, .store sizeOffset,
   .localGet list, .localGet bound, .store boundOffset]

/-- Sets `bytes` to the size of a list block with room for `bound` elements. -/
def listBytes (bound bytes : String) : Code :=
  [.localGet bound, .constU (headerSize / wordSize), .add, .constU wordSize, .mul,
   .localSet bytes]

/-- Sets `result` to a fresh list of `size` elements, with room for `bound`. -/
def newList (size : String) : Code :=
  listBytes "bound" "bytes" ++ Allocation.dynamic "bytes" ++ [.localSet "result"] ++
  listHeader "result" size "bound"

/-- Reports an index outside `[0, length)`. -/
def indexCheck (index : String) (length : Code) : Code :=
  [.localGet index, .const 0, .numeric .ltS, .localGet index] ++ length ++
  [.numeric .geS, .numeric .or,
   .when ([.localGet index] ++ length ++ [.callIntrinsic .indexError, .unreachable])]

/-- Sets `total` to the sum of one header word over all sources. -/
def sumHeaders (sources : List String) (offset : UInt32) (total : String) : Code :=
  [.const 0] ++ sources.flatMap (fun source => [.localGet source, .load offset, .add]) ++
  [.localSet total]

/-- Appends the elements of one source to `result`, of which `filled` elements are written. -/
def appendElements (source : String) : Code :=
  [.localGet source, .constU headerSize, .add, .localSet "src"] ++
  addressOf "result" headerSize "filled" wordSize "dst" ++
  [.localGet source, .load sizeOffset, .localSet "count"] ++
  copyWords "src" "dst" "count" "i" ++
  [.localGet "filled", .localGet "count", .add, .localSet "filled"]

/-- A fresh list with the elements of all sources. Size and bound are the sums over the sources. -/
def listJoin (helper : Helper) (sources : List String) : Func where
  name := helper.name
  params := sources
  locals := ["size", "bound", "bytes", "result", "filled", "src", "dst", "count", "i"]
  body :=
    sumHeaders sources sizeOffset "size" ++
    sumHeaders sources boundOffset "bound" ++
    newList "size" ++
    [.const 0, .localSet "filled"] ++
    sources.flatMap appendElements ++
    [.localGet "result"]

/-- A fresh list with the elements of `list` in `[start, end)`. -/
def listSlice (slack : UInt32) : Func where
  name := Helper.listSlice.name
  params := ["list", "start", "end"]
  locals := ["count", "bound", "bytes", "result", "src", "dst", "i"]
  body :=
    [.localGet "end", .localGet "start", .sub, .localSet "count",
     .localGet "count", .const 0, .numeric .ltS, .when [.const 0, .localSet "count"],
     .localGet "count", .constU slack, .add, .localSet "bound"] ++
    newList "count" ++
    addressOf "list" headerSize "start" wordSize "src" ++
    [.localGet "result", .constU headerSize, .add, .localSet "dst"] ++
    copyWords "src" "dst" "count" "i" ++
    [.localGet "result"]

def listElementAddress : Func where
  name := Helper.listElementAddress.name
  params := ["list", "index"]
  body :=
    indexCheck "index" [.localGet "list", .load sizeOffset] ++
    [.localGet "list", .constU headerSize, .add, .localGet "index", .constU wordSize, .mul,
     .add]

/-- A fresh string of the character at an index. Negative indices count from the end, and an index
outside the string is reported as it was given. -/
def strIndex : Func where
  name := Helper.strIndex.name
  params := ["string", "index"]
  locals := ["length", "i", "result"]
  body :=
    [.localGet "string", .load lengthOffset, .localSet "length",
     .localGet "index", .localSet "i",
     .localGet "i", .const 0, .numeric .ltS,
     .when [.localGet "i", .localGet "length", .add, .localSet "i"],
     .localGet "i", .const 0, .numeric .ltS,
     .localGet "i", .localGet "length", .numeric .geS, .numeric .or,
     .when [.localGet "index", .localGet "length", .callIntrinsic .indexError, .unreachable]] ++
    Allocation.static oneCharSize ++
    [.localSet "result",
     .localGet "result", .const 1, .store lengthOffset,
     .localGet "result"] ++ wordAt "string" "i" ++
    [.load firstChar, .store firstChar,
     .localGet "result"]

/-- Compares the characters at `i`, and returns if they differ. -/
def compareRound : Code :=
  leaveAt "i" "length" ++ wordAt "left" "i" ++ [.load firstChar] ++
  wordAt "right" "i" ++ [.load firstChar] ++ [.numeric .ne, .when [.const 0, .ret]] ++
  increment "i" ++ [.br 0]

def strEq : Func where
  name := Helper.strEq.name
  params := ["left", "right"]
  locals := ["length", "i"]
  body :=
    [.localGet "left", .load lengthOffset, .localSet "length",
     .localGet "length", .localGet "right", .load lengthOffset, .numeric .ne,
     .when [.const 0, .ret],
     .const 0, .localSet "i",
     .block [.loop compareRound],
     .const 1]

def strConcat : Func where
  name := Helper.strConcat.name
  params := ["left", "right"]
  locals := ["left_length", "right_length", "length", "bytes", "result", "src", "dst", "count", "i"]
  body :=
    [.localGet "left", .load lengthOffset, .localSet "left_length",
     .localGet "right", .load lengthOffset, .localSet "right_length",
     .localGet "left_length", .localGet "right_length", .add, .localSet "length",
     .localGet "length", .const 1, .add, .constU wordSize, .mul, .localSet "bytes"] ++
    Allocation.dynamic "bytes" ++
    [.localSet "result",
     .localGet "result", .localGet "length", .store lengthOffset,
     .localGet "left", .constU stringHeader, .add, .localSet "src",
     .localGet "result", .constU stringHeader, .add, .localSet "dst",
     .localGet "left_length", .localSet "count"] ++
    copyWords "src" "dst" "count" "i" ++
    [.localGet "right", .constU stringHeader, .add, .localSet "src"] ++
    addressOf "result" stringHeader "left_length" wordSize "dst" ++
    [.localGet "right_length", .localSet "count"] ++
    copyWords "src" "dst" "count" "i" ++
    [.localGet "result"]

/-- Whether the key of the entry at `i` matches. String keys match by content, all others by
word. -/
def matchEntry : Code :=
  leaveAt "i" "size" ++ addressOf "dict" headerSize "i" entrySize "entry" ++
  [.localGet "key_is_string",
   .choose [.localGet "entry", .load 0, .localGet "key", .callHelper .strEq]
     [.localGet "entry", .load 0, .localGet "key", .numeric .eq]]

/-- One round of a search: the value of the entry at `i` is returned if its key matches. -/
def searchRound : Code :=
  matchEntry ++ [.when [.localGet "entry", .load wordSize, .ret]] ++ increment "i" ++ [.br 0]

/-- The value of the first entry whose key matches. -/
def dictGet : Func where
  name := Helper.dictGet.name
  params := ["dict", "key", "key_is_string"]
  locals := ["size", "i", "entry"]
  body :=
    [.localGet "dict", .load sizeOffset, .localSet "size",
     .const 0, .localSet "i",
     .block [.loop searchRound],
     .localGet "key", .callIntrinsic .keyError, .unreachable]

/-- A fresh big integer with the value of a word. Its count is the sign of the word and its one limb
the magnitude, also for the least word. -/
def bignumFromI32 : Func where
  name := Helper.bignumFromI32.name
  params := ["value"]
  locals := ["result"]
  body :=
    Allocation.static oneLimbSize ++
    [.localSet "result",
     .localGet "result",
     .localGet "value", .const 0, .numeric .gtS,
     .localGet "value", .const 0, .numeric .ltS, .sub,
     .store countOffset,
     .localGet "result",
     .localGet "value", .const 0, .numeric .ltS,
     .choose [.const 0, .localGet "value", .sub] [.localGet "value"],
     .store firstLimb,
     .localGet "result"]

/-- The word with the value of a big integer. A magnitude past the largest word becomes the least
word, which every index check rejects. -/
def bignumToI32 : Func where
  name := Helper.bignumToI32.name
  params := ["number"]
  locals := ["count", "limb"]
  body :=
    [.localGet "number", .load countOffset, .localSet "count",
     .localGet "count", .eqz,
     .choose [.const 0]
       [.localGet "number", .load firstLimb, .localSet "limb",
        .localGet "count", .const 1, .numeric .gtS,
        .localGet "count", .const (-1), .numeric .ltS, .numeric .or,
        .localGet "limb", .const 0, .numeric .ltS, .numeric .or,
        .choose [.const (-2147483648)]
          [.localGet "count", .const 0, .numeric .ltS,
           .choose [.const 0, .localGet "limb", .sub] [.localGet "limb"]]]]

end HelperBody

def Helper.function (slack : UInt32) : Helper → Func
  | .listCopy => HelperBody.listJoin .listCopy ["list"]
  | .listConcat => HelperBody.listJoin .listConcat ["left", "right"]
  | .listSlice => HelperBody.listSlice slack
  | .listElementAddress => HelperBody.listElementAddress
  | .strIndex => HelperBody.strIndex
  | .strEq => HelperBody.strEq
  | .strConcat => HelperBody.strConcat
  | .dictGet => HelperBody.dictGet
  | .bignumFromI32 => HelperBody.bignumFromI32
  | .bignumToI32 => HelperBody.bignumToI32

end TypedWasm
