import CilAudit.Opcode

/-!
# The instruction set

All opcodes by ascending number, and the two ways to look one up: by number and by mnemonic.
-/

set_option autoImplicit false

namespace CilAudit

/-- The opcodes of the instruction set. -/
def Opcode.all : List Opcode :=
  [⟨⟨0x00⟩, "nop", .none, some 0, some 0, .next, .other⟩,
   ⟨⟨0x01⟩, "break", .none, some 0, some 0, .next, .other⟩,
   ⟨⟨0x02⟩, "ldarg.0", .none, some 0, some 1, .next, .loadArg (some 0)⟩,
   ⟨⟨0x03⟩, "ldarg.1", .none, some 0, some 1, .next, .loadArg (some 1)⟩,
   ⟨⟨0x04⟩, "ldarg.2", .none, some 0, some 1, .next, .loadArg (some 2)⟩,
   ⟨⟨0x05⟩, "ldarg.3", .none, some 0, some 1, .next, .loadArg (some 3)⟩,
   ⟨⟨0x06⟩, "ldloc.0", .none, some 0, some 1, .next, .loadLocal (some 0)⟩,
   ⟨⟨0x07⟩, "ldloc.1", .none, some 0, some 1, .next, .loadLocal (some 1)⟩,
   ⟨⟨0x08⟩, "ldloc.2", .none, some 0, some 1, .next, .loadLocal (some 2)⟩,
   ⟨⟨0x09⟩, "ldloc.3", .none, some 0, some 1, .next, .loadLocal (some 3)⟩,
   ⟨⟨0x0A⟩, "stloc.0", .none, some 1, some 0, .next, .storeLocal (some 0)⟩,
   ⟨⟨0x0B⟩, "stloc.1", .none, some 1, some 0, .next, .storeLocal (some 1)⟩,
   ⟨⟨0x0C⟩, "stloc.2", .none, some 1, some 0, .next, .storeLocal (some 2)⟩,
   ⟨⟨0x0D⟩, "stloc.3", .none, some 1, some 0, .next, .storeLocal (some 3)⟩,
   ⟨⟨0x0E⟩, "ldarg.s", .shortVar, some 0, some 1, .next, .loadArg none⟩,
   ⟨⟨0x0F⟩, "ldarga.s", .shortVar, some 0, some 1, .next, .loadArgAddress⟩,
   ⟨⟨0x10⟩, "starg.s", .shortVar, some 1, some 0, .next, .storeArg⟩,
   ⟨⟨0x11⟩, "ldloc.s", .shortVar, some 0, some 1, .next, .loadLocal none⟩,
   ⟨⟨0x12⟩, "ldloca.s", .shortVar, some 0, some 1, .next, .loadLocalAddress⟩,
   ⟨⟨0x13⟩, "stloc.s", .shortVar, some 1, some 0, .next, .storeLocal none⟩,
   ⟨⟨0x14⟩, "ldnull", .none, some 0, some 1, .next, .loadNull⟩,
   ⟨⟨0x15⟩, "ldc.i4.m1", .none, some 0, some 1, .next, .loadInt32 (some (-1))⟩,
   ⟨⟨0x16⟩, "ldc.i4.0", .none, some 0, some 1, .next, .loadInt32 (some 0)⟩,
   ⟨⟨0x17⟩, "ldc.i4.1", .none, some 0, some 1, .next, .loadInt32 (some 1)⟩,
   ⟨⟨0x18⟩, "ldc.i4.2", .none, some 0, some 1, .next, .loadInt32 (some 2)⟩,
   ⟨⟨0x19⟩, "ldc.i4.3", .none, some 0, some 1, .next, .loadInt32 (some 3)⟩,
   ⟨⟨0x1A⟩, "ldc.i4.4", .none, some 0, some 1, .next, .loadInt32 (some 4)⟩,
   ⟨⟨0x1B⟩, "ldc.i4.5", .none, some 0, some 1, .next, .loadInt32 (some 5)⟩,
   ⟨⟨0x1C⟩, "ldc.i4.6", .none, some 0, some 1, .next, .loadInt32 (some 6)⟩,
   ⟨⟨0x1D⟩, "ldc.i4.7", .none, some 0, some 1, .next, .loadInt32 (some 7)⟩,
   ⟨⟨0x1E⟩, "ldc.i4.8", .none, some 0, some 1, .next, .loadInt32 (some 8)⟩,
   ⟨⟨0x1F⟩, "ldc.i4.s", .shortInt, some 0, some 1, .next, .loadInt32 none⟩,
   ⟨⟨0x20⟩, "ldc.i4", .int32, some 0, some 1, .next, .loadInt32 none⟩,
   ⟨⟨0x21⟩, "ldc.i8", .int64, some 0, some 1, .next, .loadInt64⟩,
   ⟨⟨0x22⟩, "ldc.r4", .float32, some 0, some 1, .next, .loadFloat32⟩,
   ⟨⟨0x23⟩, "ldc.r8", .float64, some 0, some 1, .next, .loadFloat64⟩,
   ⟨⟨0x25⟩, "dup", .none, some 1, some 2, .next, .other⟩,
   ⟨⟨0x26⟩, "pop", .none, some 1, some 0, .next, .other⟩,
   ⟨⟨0x27⟩, "jmp", .method, some 0, some 0, .exit, .other⟩,
   ⟨⟨0x28⟩, "call", .method, none, none, .call, .call false⟩,
   ⟨⟨0x29⟩, "calli", .signature, none, none, .call, .other⟩,
   ⟨⟨0x2A⟩, "ret", .none, none, some 0, .exit, .ret⟩,
   ⟨⟨0x2B⟩, "br.s", .shortTarget, some 0, some 0, .branch, .branch false⟩,
   ⟨⟨0x2C⟩, "brfalse.s", .shortTarget, some 1, some 0, .conditional, .branchIf .isFalse false⟩,
   ⟨⟨0x2D⟩, "brtrue.s", .shortTarget, some 1, some 0, .conditional, .branchIf .isTrue false⟩,
   ⟨⟨0x2E⟩, "beq.s", .shortTarget, some 2, some 0, .conditional, .branchIf .eq false⟩,
   ⟨⟨0x2F⟩, "bge.s", .shortTarget, some 2, some 0, .conditional, .branchIf .ge false⟩,
   ⟨⟨0x30⟩, "bgt.s", .shortTarget, some 2, some 0, .conditional, .branchIf .gt false⟩,
   ⟨⟨0x31⟩, "ble.s", .shortTarget, some 2, some 0, .conditional, .branchIf .le false⟩,
   ⟨⟨0x32⟩, "blt.s", .shortTarget, some 2, some 0, .conditional, .branchIf .lt false⟩,
   ⟨⟨0x33⟩, "bne.un.s", .shortTarget, some 2, some 0, .conditional, .branchIf .ne true⟩,
   ⟨⟨0x34⟩, "bge.un.s", .shortTarget, some 2, some 0, .conditional, .branchIf .ge true⟩,
   ⟨⟨0x35⟩, "bgt.un.s", .shortTarget, some 2, some 0, .conditional, .branchIf .gt true⟩,
   ⟨⟨0x36⟩, "ble.un.s", .shortTarget, some 2, some 0, .conditional, .branchIf .le true⟩,
   ⟨⟨0x37⟩, "blt.un.s", .shortTarget, some 2, some 0, .conditional, .branchIf .lt true⟩,
   ⟨⟨0x38⟩, "br", .target, some 0, some 0, .branch, .branch false⟩,
   ⟨⟨0x39⟩, "brfalse", .target, some 1, some 0, .conditional, .branchIf .isFalse false⟩,
   ⟨⟨0x3A⟩, "brtrue", .target, some 1, some 0, .conditional, .branchIf .isTrue false⟩,
   ⟨⟨0x3B⟩, "beq", .target, some 2, some 0, .conditional, .branchIf .eq false⟩,
   ⟨⟨0x3C⟩, "bge", .target, some 2, some 0, .conditional, .branchIf .ge false⟩,
   ⟨⟨0x3D⟩, "bgt", .target, some 2, some 0, .conditional, .branchIf .gt false⟩,
   ⟨⟨0x3E⟩, "ble", .target, some 2, some 0, .conditional, .branchIf .le false⟩,
   ⟨⟨0x3F⟩, "blt", .target, some 2, some 0, .conditional, .branchIf .lt false⟩,
   ⟨⟨0x40⟩, "bne.un", .target, some 2, some 0, .conditional, .branchIf .ne true⟩,
   ⟨⟨0x41⟩, "bge.un", .target, some 2, some 0, .conditional, .branchIf .ge true⟩,
   ⟨⟨0x42⟩, "bgt.un", .target, some 2, some 0, .conditional, .branchIf .gt true⟩,
   ⟨⟨0x43⟩, "ble.un", .target, some 2, some 0, .conditional, .branchIf .le true⟩,
   ⟨⟨0x44⟩, "blt.un", .target, some 2, some 0, .conditional, .branchIf .lt true⟩,
   ⟨⟨0x45⟩, "switch", .targetTable, some 1, some 0, .conditional, .switch⟩,
   ⟨⟨0x46⟩, "ldind.i1", .none, some 1, some 1, .next, .other⟩,
   ⟨⟨0x47⟩, "ldind.u1", .none, some 1, some 1, .next, .other⟩,
   ⟨⟨0x48⟩, "ldind.i2", .none, some 1, some 1, .next, .other⟩,
   ⟨⟨0x49⟩, "ldind.u2", .none, some 1, some 1, .next, .other⟩,
   ⟨⟨0x4A⟩, "ldind.i4", .none, some 1, some 1, .next, .other⟩,
   ⟨⟨0x4B⟩, "ldind.u4", .none, some 1, some 1, .next, .other⟩,
   ⟨⟨0x4C⟩, "ldind.i8", .none, some 1, some 1, .next, .other⟩,
   ⟨⟨0x4D⟩, "ldind.i", .none, some 1, some 1, .next, .other⟩,
   ⟨⟨0x4E⟩, "ldind.r4", .none, some 1, some 1, .next, .other⟩,
   ⟨⟨0x4F⟩, "ldind.r8", .none, some 1, some 1, .next, .other⟩,
   ⟨⟨0x50⟩, "ldind.ref", .none, some 1, some 1, .next, .other⟩,
   ⟨⟨0x51⟩, "stind.ref", .none, some 2, some 0, .next, .other⟩,
   ⟨⟨0x52⟩, "stind.i1", .none, some 2, some 0, .next, .other⟩,
   ⟨⟨0x53⟩, "stind.i2", .none, some 2, some 0, .next, .other⟩,
   ⟨⟨0x54⟩, "stind.i4", .none, some 2, some 0, .next, .other⟩,
   ⟨⟨0x55⟩, "stind.i8", .none, some 2, some 0, .next, .other⟩,
   ⟨⟨0x56⟩, "stind.r4", .none, some 2, some 0, .next, .other⟩,
   ⟨⟨0x57⟩, "stind.r8", .none, some 2, some 0, .next, .other⟩,
   ⟨⟨0x58⟩, "add", .none, some 2, some 1, .next, .other⟩,
   ⟨⟨0x59⟩, "sub", .none, some 2, some 1, .next, .other⟩,
   ⟨⟨0x5A⟩, "mul", .none, some 2, some 1, .next, .other⟩,
   ⟨⟨0x5B⟩, "div", .none, some 2, some 1, .next, .other⟩,
   ⟨⟨0x5C⟩, "div.un", .none, some 2, some 1, .next, .other⟩,
   ⟨⟨0x5D⟩, "rem", .none, some 2, some 1, .next, .other⟩,
   ⟨⟨0x5E⟩, "rem.un", .none, some 2, some 1, .next, .other⟩,
   ⟨⟨0x5F⟩, "and", .none, some 2, some 1, .next, .other⟩,
   ⟨⟨0x60⟩, "or", .none, some 2, some 1, .next, .other⟩,
   ⟨⟨0x61⟩, "xor", .none, some 2, some 1, .next, .other⟩,
   ⟨⟨0x62⟩, "shl", .none, some 2, some 1, .next, .other⟩,
   ⟨⟨0x63⟩, "shr", .none, some 2, some 1, .next, .other⟩,
   ⟨⟨0x64⟩, "shr.un", .none, some 2, some 1, .next, .other⟩,
   ⟨⟨0x65⟩, "neg", .none, some 1, some 1, .next, .other⟩,
   ⟨⟨0x66⟩, "not", .none, some 1, some 1, .next, .other⟩,
   ⟨⟨0x67⟩, "conv.i1", .none, some 1, some 1, .next, .other⟩,
   ⟨⟨0x68⟩, "conv.i2", .none, some 1, some 1, .next, .other⟩,
   ⟨⟨0x69⟩, "conv.i4", .none, some 1, some 1, .next, .other⟩,
   ⟨⟨0x6A⟩, "conv.i8", .none, some 1, some 1, .next, .other⟩,
   ⟨⟨0x6B⟩, "conv.r4", .none, some 1, some 1, .next, .other⟩,
   ⟨⟨0x6C⟩, "conv.r8", .none, some 1, some 1, .next, .other⟩,
   ⟨⟨0x6D⟩, "conv.u4", .none, some 1, some 1, .next, .other⟩,
   ⟨⟨0x6E⟩, "conv.u8", .none, some 1, some 1, .next, .other⟩,
   ⟨⟨0x6F⟩, "callvirt", .method, none, none, .call, .call true⟩,
   ⟨⟨0x70⟩, "cpobj", .type, some 2, some 0, .next, .other⟩,
   ⟨⟨0x71⟩, "ldobj", .type, some 1, some 1, .next, .other⟩,
   ⟨⟨0x72⟩, "ldstr", .string, some 0, some 1, .next, .loadString⟩,
   ⟨⟨0x73⟩, "newobj", .method, none, some 1, .call, .newObject⟩,
   ⟨⟨0x74⟩, "castclass", .type, some 1, some 1, .next, .other⟩,
   ⟨⟨0x75⟩, "isinst", .type, some 1, some 1, .next, .other⟩,
   ⟨⟨0x76⟩, "conv.r.un", .none, some 1, some 1, .next, .other⟩,
   ⟨⟨0x79⟩, "unbox", .type, some 1, some 1, .next, .other⟩,
   ⟨⟨0x7A⟩, "throw", .none, some 1, some 0, .throw, .throw false⟩,
   ⟨⟨0x7B⟩, "ldfld", .field, some 1, some 1, .next, .loadField false false⟩,
   ⟨⟨0x7C⟩, "ldflda", .field, some 1, some 1, .next, .loadField false true⟩,
   ⟨⟨0x7D⟩, "stfld", .field, some 2, some 0, .next, .storeField false⟩,
   ⟨⟨0x7E⟩, "ldsfld", .field, some 0, some 1, .next, .loadField true false⟩,
   ⟨⟨0x7F⟩, "ldsflda", .field, some 0, some 1, .next, .loadField true true⟩,
   ⟨⟨0x80⟩, "stsfld", .field, some 1, some 0, .next, .storeField true⟩,
   ⟨⟨0x81⟩, "stobj", .type, some 2, some 0, .next, .other⟩,
   ⟨⟨0x82⟩, "conv.ovf.i1.un", .none, some 1, some 1, .next, .other⟩,
   ⟨⟨0x83⟩, "conv.ovf.i2.un", .none, some 1, some 1, .next, .other⟩,
   ⟨⟨0x84⟩, "conv.ovf.i4.un", .none, some 1, some 1, .next, .other⟩,
   ⟨⟨0x85⟩, "conv.ovf.i8.un", .none, some 1, some 1, .next, .other⟩,
   ⟨⟨0x86⟩, "conv.ovf.u1.un", .none, some 1, some 1, .next, .other⟩,
   ⟨⟨0x87⟩, "conv.ovf.u2.un", .none, some 1, some 1, .next, .other⟩,
   ⟨⟨0x88⟩, "conv.ovf.u4.un", .none, some 1, some 1, .next, .other⟩,
   ⟨⟨0x89⟩, "conv.ovf.u8.un", .none, some 1, some 1, .next, .other⟩,
   ⟨⟨0x8A⟩, "conv.ovf.i.un", .none, some 1, some 1, .next, .other⟩,
   ⟨⟨0x8B⟩, "conv.ovf.u.un", .none, some 1, some 1, .next, .other⟩,
   ⟨⟨0x8C⟩, "box", .type, some 1, some 1, .next, .other⟩,
   ⟨⟨0x8D⟩, "newarr", .type, some 1, some 1, .next, .other⟩,
   ⟨⟨0x8E⟩, "ldlen", .none, some 1, some 1, .next, .other⟩,
   ⟨⟨0x8F⟩, "ldelema", .type, some 2, some 1, .next, .other⟩,
   ⟨⟨0x90⟩, "ldelem.i1", .none, some 2, some 1, .next, .other⟩,
   ⟨⟨0x91⟩, "ldelem.u1", .none, some 2, some 1, .next, .other⟩,
   ⟨⟨0x92⟩, "ldelem.i2", .none, some 2, some 1, .next, .other⟩,
   ⟨⟨0x93⟩, "ldelem.u2", .none, some 2, some 1, .next, .other⟩,
   ⟨⟨0x94⟩, "ldelem.i4", .none, some 2, some 1, .next, .other⟩,
   ⟨⟨0x95⟩, "ldelem.u4", .none, some 2, some 1, .next, .other⟩,
   ⟨⟨0x96⟩, "ldelem.i8", .none, some 2, some 1, .next, .other⟩,
   ⟨⟨0x97⟩, "ldelem.i", .none, some 2, some 1, .next, .other⟩,
   ⟨⟨0x98⟩, "ldelem.r4", .none, some 2, some 1, .next, .other⟩,
   ⟨⟨0x99⟩, "ldelem.r8", .none, some 2, some 1, .next, .other⟩,
   ⟨⟨0x9A⟩, "ldelem.ref", .none, some 2, some 1, .next, .other⟩,
   ⟨⟨0x9B⟩, "stelem.i", .none, some 3, some 0, .next, .other⟩,
   ⟨⟨0x9C⟩, "stelem.i1", .none, some 3, some 0, .next, .other⟩,
   ⟨⟨0x9D⟩, "stelem.i2", .none, some 3, some 0, .next, .other⟩,
   ⟨⟨0x9E⟩, "stelem.i4", .none, some 3, some 0, .next, .other⟩,
   ⟨⟨0x9F⟩, "stelem.i8", .none, some 3, some 0, .next, .other⟩,
   ⟨⟨0xA0⟩, "stelem.r4", .none, some 3, some 0, .next, .other⟩,
   ⟨⟨0xA1⟩, "stelem.r8", .none, some 3, some 0, .next, .other⟩,
   ⟨⟨0xA2⟩, "stelem.ref", .none, some 3, some 0, .next, .other⟩,
   ⟨⟨0xA3⟩, "ldelem", .type, some 2, some 1, .next, .other⟩,
   ⟨⟨0xA4⟩, "stelem", .type, some 3, some 0, .next, .other⟩,
   ⟨⟨0xA5⟩, "unbox.any", .type, some 1, some 1, .next, .other⟩,
   ⟨⟨0xB3⟩, "conv.ovf.i1", .none, some 1, some 1, .next, .other⟩,
   ⟨⟨0xB4⟩, "conv.ovf.u1", .none, some 1, some 1, .next, .other⟩,
   ⟨⟨0xB5⟩, "conv.ovf.i2", .none, some 1, some 1, .next, .other⟩,
   ⟨⟨0xB6⟩, "conv.ovf.u2", .none, some 1, some 1, .next, .other⟩,
   ⟨⟨0xB7⟩, "conv.ovf.i4", .none, some 1, some 1, .next, .other⟩,
   ⟨⟨0xB8⟩, "conv.ovf.u4", .none, some 1, some 1, .next, .other⟩,
   ⟨⟨0xB9⟩, "conv.ovf.i8", .none, some 1, some 1, .next, .other⟩,
   ⟨⟨0xBA⟩, "conv.ovf.u8", .none, some 1, some 1, .next, .other⟩,
   ⟨⟨0xC2⟩, "refanyval", .type, some 1, some 1, .next, .other⟩,
   ⟨⟨0xC3⟩, "ckfinite", .none, some 1, some 1, .next, .other⟩,
   ⟨⟨0xC6⟩, "mkrefany", .type, some 1, some 1, .next, .other⟩,
   ⟨⟨0xD0⟩, "ldtoken", .token, some 0, some 1, .next, .other⟩,
   ⟨⟨0xD1⟩, "conv.u2", .none, some 1, some 1, .next, .other⟩,
   ⟨⟨0xD2⟩, "conv.u1", .none, some 1, some 1, .next, .other⟩,
   ⟨⟨0xD3⟩, "conv.i", .none, some 1, some 1, .next, .other⟩,
   ⟨⟨0xD4⟩, "conv.ovf.i", .none, some 1, some 1, .next, .other⟩,
   ⟨⟨0xD5⟩, "conv.ovf.u", .none, some 1, some 1, .next, .other⟩,
   ⟨⟨0xD6⟩, "add.ovf", .none, some 2, some 1, .next, .other⟩,
   ⟨⟨0xD7⟩, "add.ovf.un", .none, some 2, some 1, .next, .other⟩,
   ⟨⟨0xD8⟩, "mul.ovf", .none, some 2, some 1, .next, .other⟩,
   ⟨⟨0xD9⟩, "mul.ovf.un", .none, some 2, some 1, .next, .other⟩,
   ⟨⟨0xDA⟩, "sub.ovf", .none, some 2, some 1, .next, .other⟩,
   ⟨⟨0xDB⟩, "sub.ovf.un", .none, some 2, some 1, .next, .other⟩,
   ⟨⟨0xDC⟩, "endfinally", .none, some 0, some 0, .exit, .other⟩,
   ⟨⟨0xDD⟩, "leave", .target, some 0, some 0, .branch, .branch true⟩,
   ⟨⟨0xDE⟩, "leave.s", .shortTarget, some 0, some 0, .branch, .branch true⟩,
   ⟨⟨0xDF⟩, "stind.i", .none, some 2, some 0, .next, .other⟩,
   ⟨⟨0xE0⟩, "conv.u", .none, some 1, some 1, .next, .other⟩,
   ⟨⟨0xFE00⟩, "arglist", .none, some 0, some 1, .next, .other⟩,
   ⟨⟨0xFE01⟩, "ceq", .none, some 2, some 1, .next, .compare .eq false⟩,
   ⟨⟨0xFE02⟩, "cgt", .none, some 2, some 1, .next, .compare .gt false⟩,
   ⟨⟨0xFE03⟩, "cgt.un", .none, some 2, some 1, .next, .compare .gt true⟩,
   ⟨⟨0xFE04⟩, "clt", .none, some 2, some 1, .next, .compare .lt false⟩,
   ⟨⟨0xFE05⟩, "clt.un", .none, some 2, some 1, .next, .compare .lt true⟩,
   ⟨⟨0xFE06⟩, "ldftn", .method, some 0, some 1, .next, .other⟩,
   ⟨⟨0xFE07⟩, "ldvirtftn", .method, some 1, some 1, .next, .other⟩,
   ⟨⟨0xFE09⟩, "ldarg", .var, some 0, some 1, .next, .loadArg none⟩,
   ⟨⟨0xFE0A⟩, "ldarga", .var, some 0, some 1, .next, .loadArgAddress⟩,
   ⟨⟨0xFE0B⟩, "starg", .var, some 1, some 0, .next, .storeArg⟩,
   ⟨⟨0xFE0C⟩, "ldloc", .var, some 0, some 1, .next, .loadLocal none⟩,
   ⟨⟨0xFE0D⟩, "ldloca", .var, some 0, some 1, .next, .loadLocalAddress⟩,
   ⟨⟨0xFE0E⟩, "stloc", .var, some 1, some 0, .next, .storeLocal none⟩,
   ⟨⟨0xFE0F⟩, "localloc", .none, some 1, some 1, .next, .other⟩,
   ⟨⟨0xFE11⟩, "endfilter", .none, some 1, some 0, .exit, .other⟩,
   ⟨⟨0xFE12⟩, "unaligned.", .shortInt, some 0, some 0, .modifier, .other⟩,
   ⟨⟨0xFE13⟩, "volatile.", .none, some 0, some 0, .modifier, .other⟩,
   ⟨⟨0xFE14⟩, "tail.", .none, some 0, some 0, .modifier, .other⟩,
   ⟨⟨0xFE15⟩, "initobj", .type, some 1, some 0, .next, .other⟩,
   ⟨⟨0xFE16⟩, "constrained.", .type, some 0, some 0, .modifier, .other⟩,
   ⟨⟨0xFE17⟩, "cpblk", .none, some 3, some 0, .next, .other⟩,
   ⟨⟨0xFE18⟩, "initblk", .none, some 3, some 0, .next, .other⟩,
   ⟨⟨0xFE19⟩, "no.", .shortInt, some 0, some 0, .modifier, .other⟩,
   ⟨⟨0xFE1A⟩, "rethrow", .none, some 0, some 0, .throw, .throw true⟩,
   ⟨⟨0xFE1C⟩, "sizeof", .type, some 0, some 1, .next, .other⟩,
   ⟨⟨0xFE1D⟩, "refanytype", .none, some 1, some 1, .next, .other⟩,
   ⟨⟨0xFE1E⟩, "readonly.", .none, some 0, some 0, .modifier, .other⟩]

namespace Code

/-- The row of the instruction set with this number. -/
def opcode? (c : Code) : Option Opcode := Opcode.all.find? fun o => o.code = c

/-- The number of the opcode with this mnemonic. -/
def ofMnemonic? (name : Text) : Option Code :=
  (Opcode.all.find? fun o => Text.ofString o.name = name).map (·.code)

/-- The mnemonic, or a tag in hexadecimal for a number outside the instruction set. -/
def mnemonic (c : Code) : Text :=
  match c.opcode? with
  | some o => o.name
  | none => "op_" ++ Text.hexUpper (if 0xFF < c.value then 4 else 2) c.value.toNat

/-- `dup`, which leaves its argument twice. -/
def dup : Code := ⟨0x25⟩

end Code

end CilAudit
