import AccountDirectory.Rust

/-! The shape of an account root: the path gate of both handlers. -/
namespace AccountDirectory

/-- Whether `root` is a SEC1 point in lowercase hex, compressed or
uncompressed. The slice is taken before the prefix is looked at. -/
def isAccountRoot (root : String) : Except Panic Bool := do
  let chars := root.toList
  let prefixed := ['0', '2'].isPrefixOf chars || ['0', '3'].isPrefixOf chars
    || ['0', '4'].isPrefixOf chars
  let hex ← if 2 ≤ root.utf8ByteSize then sliceFrom chars 2 else .ok []
  return prefixed
    && (64 ≤ utf8Len hex && utf8Len hex ≤ 128)
    && (utf8Bytes hex).all fun b => (48 ≤ b && b ≤ 57) || (97 ≤ b && b ≤ 102)

end AccountDirectory
